import MuslBsd.Support.SearchTree

/-! The splay trees of `tree.h`. -/
namespace MuslBsd.Trees
open MuslBsd.Support

/-- `SPLAY_ENTRY`: the links of an element, null as `none`. -/
structure SplayEntry (α : Type*) where
  left : Option α
  right : Option α

def SplayEntry.child {α : Type*} (e : SplayEntry α) : Side → Option α
  | .left => e.left
  | .right => e.right

def SplayEntry.setChild {α : Type*} (e : SplayEntry α) : Side → Option α → SplayEntry α
  | .left, p => { e with left := p }
  | .right, p => { e with right := p }

/-- A tree in memory: the entry of every element there is, and `SPLAY_HEAD`. -/
structure Splay (α : Type*) where
  entry : α → SplayEntry α
  root : Option α

/-- What `__left` and `__right` point to: the local `__node`, or an element. -/
inductive Spot (α : Type*) where
  | node
  | elm (a : α)

/-- The state of `SPLAY`: the tree and the local variables. -/
structure Splaying (α : Type*) where
  tree : Splay α
  node : SplayEntry α
  left : Spot α
  right : Spot α

variable {α : Type*} [DecidableEq α]

namespace Splay

/-- `SPLAY_INIT`. -/
def init (s : Splay α) : Splay α := { s with root := none }

/-- `SPLAY_LEFT` and `SPLAY_RIGHT`. -/
def child (s : Splay α) (d : Side) (elm : α) : Option α := (s.entry elm).child d

def setChild (s : Splay α) (d : Side) (elm : α) (p : Option α) : Splay α :=
  { s with entry := Function.update s.entry elm ((s.entry elm).setChild d p) }

/-- `SPLAY_ROTATE_RIGHT` with `d = left` and `SPLAY_ROTATE_LEFT` with `d = right`. -/
def rotate (d : Side) (s : Splay α) (root tmp : α) : Splay α :=
  let s := s.setChild d root (s.child d.flip tmp)
  let s := s.setChild d.flip tmp (some root)
  { s with root := some tmp }

end Splay

namespace Splaying

def child (s : Splaying α) (d : Side) : Spot α → Option α
  | .node => s.node.child d
  | .elm a => s.tree.child d a

def setChild (s : Splaying α) (d : Side) : Spot α → Option α → Splaying α
  | .node, p => { s with node := s.node.setChild d p }
  | .elm a, p => { s with tree := s.tree.setChild d a p }

/-- `__right` for the side `left` and `__left` for the side `right`. -/
def hook (s : Splaying α) : Side → Spot α
  | .left => s.right
  | .right => s.left

def setHook (s : Splaying α) : Side → Spot α → Splaying α
  | .left, p => { s with right := p }
  | .right, p => { s with left := p }

/-- `SPLAY_LINKLEFT` to `__right` with `d = left`, and `SPLAY_LINKRIGHT` to `__left` with `d = right`. -/
def link (d : Side) (s : Splaying α) (root : α) : Splaying α :=
  let s := s.setChild d (s.hook d) (some root)
  let s := s.setHook d (.elm root)
  { s with tree := { s.tree with root := s.tree.child d root } }

/-- The key of the comparison `comp` belongs to the side. -/
def goes (d : Side) (comp : ℤ) : Bool :=
  match d with
  | .left => comp < 0
  | .right => 0 < comp

/-- A round of the loop for a key on the side `d` of the root, and whether the loop goes on. -/
def turn (d : Side) (f : α → ℤ) (s : Splaying α) (root : α) : Option (Splaying α × Bool) :=
  match s.tree.child d root with
  | none => some (s, false)
  | some tmp =>
    if goes d (f tmp) then
      let s := { s with tree := s.tree.rotate d root tmp }
      if s.tree.child d tmp = none then some (s, false) else some (s.link d tmp, true)
    else some (s.link d root, true)

/-- The loop of `SPLAY`, in at most `k` rounds. `f` compares the key with an element. -/
def loop (f : α → ℤ) : ℕ → Splaying α → Option (Splaying α)
  | 0, _ => none
  | k + 1, s => do
    let root ← s.tree.root
    if f root = 0 then return s
    let (s, more) ← s.turn (if f root < 0 then .left else .right) f root
    if more then loop f k s else return s

/-- `SPLAY_ASSEMBLE`. -/
def assemble (s : Splaying α) (root : α) : Splay α :=
  let s := s.setChild .right s.left (s.tree.child .left root)
  let s := s.setChild .left s.right (s.tree.child .right root)
  let s := s.setChild .left (.elm root) s.node.right
  let s := s.setChild .right (.elm root) s.node.left
  s.tree

end Splaying

namespace Splay

/-- `SPLAY`, where `f` compares the key with an element. -/
def splay (f : α → ℤ) (k : ℕ) (s : Splay α) : Option (Splay α) := do
  let s ← Splaying.loop f k ⟨s, ⟨none, none⟩, .node, .node⟩
  let root ← s.tree.root
  return s.assemble root

/-- `SPLAY_MINMAX`, which runs as `SPLAY` does with a comparison that always gives `comp`. It has no
test that would end the loop for 0. -/
def minmax (comp : ℤ) (k : ℕ) (s : Splay α) : Option (Splay α) :=
  if comp = 0 then none else s.splay (fun _ => comp) k

/-- Let `elm` be the root above the root that there is, which goes to its side `d`. -/
def insertRoot (d : Side) (s : Splay α) (elm root : α) : Splay α :=
  let s := s.setChild d.flip elm (s.child d.flip root)
  let s := s.setChild d elm (some root)
  let s := s.setChild d.flip root none
  { s with root := some elm }

/-- `SPLAY_INSERT`: the element that is equal, or null for a new one. -/
def insert (cmp : α → α → ℤ) (k : ℕ) (s : Splay α) (elm : α) : Option (Splay α × Option α) :=
  match s.root with
  | none =>
    let s := (s.setChild .right elm none).setChild .left elm none
    some ({ s with root := some elm }, none)
  | some _ => do
    let s ← s.splay (cmp elm) k
    let root ← s.root
    if cmp elm root < 0 then return (s.insertRoot .right elm root, none)
    else if 0 < cmp elm root then return (s.insertRoot .left elm root, none)
    else return (s, some root)

/-- `SPLAY_REMOVE`, which gives back its argument rather than the element that it takes out. -/
def remove (cmp : α → α → ℤ) (k : ℕ) (s : Splay α) (elm : α) : Option (Splay α × Option α) :=
  match s.root with
  | none => some (s, none)
  | some _ => do
    let s ← s.splay (cmp elm) k
    let root ← s.root
    if cmp elm root = 0 then
      match s.child .left root with
      | none => return ({ s with root := s.child .right root }, some elm)
      | some left => do
        let tmp := s.child .right root
        let s ← { s with root := some left }.splay (cmp elm) k
        let root ← s.root
        return (s.setChild .right root tmp, some elm)
    else return (s, none)

/-- `SPLAY_FIND`. -/
def find (cmp : α → α → ℤ) (k : ℕ) (s : Splay α) (elm : α) : Option (Splay α × Option α) :=
  match s.root with
  | none => some (s, none)
  | some _ => do
    let s ← s.splay (cmp elm) k
    let root ← s.root
    return (s, if cmp elm root = 0 then some root else none)

/-- The leftmost element below `elm`. -/
def leftmost (s : Splay α) : ℕ → α → Option α
  | 0, _ => none
  | k + 1, elm =>
    match s.child .left elm with
    | some c => leftmost s k c
    | none => some elm

/-- `SPLAY_NEXT`. -/
def next (cmp : α → α → ℤ) (k : ℕ) (s : Splay α) (elm : α) : Option (Splay α × Option α) := do
  let s ← s.splay (cmp elm) k
  match s.child .right elm with
  | some c => do
    let c ← s.leftmost k c
    return (s, some c)
  | none => return (s, none)

/-- `SPLAY_MIN` with `val = -1` and `SPLAY_MAX` with `val = 1`. -/
def minMax (val : ℤ) (k : ℕ) (s : Splay α) : Option (Splay α × Option α) :=
  match s.root with
  | none => some (s, none)
  | some _ => (s.minmax val k).map fun s => (s, s.root)

/-- `SPLAY_FOREACH` from the element `x` on, for at most `n` elements, and the elements it visits. -/
def forEachFrom (cmp : α → α → ℤ) (k : ℕ) (body : Splay α → α → Option (Splay α)) :
    ℕ → Splay α → Option α → Option (Splay α × List α)
  | _, s, none => some (s, [])
  | 0, _, some _ => none
  | n + 1, s, some x => do
    let s ← body s x
    let (s, y) ← s.next cmp k x
    let (s, visited) ← forEachFrom cmp k body n s y
    return (s, x :: visited)

def forEach (cmp : α → α → ℤ) (k : ℕ) (body : Splay α → α → Option (Splay α)) (n : ℕ) (s : Splay α) :
    Option (Splay α × List α) := do
  let (s, x) ← s.minMax (-1) k
  s.forEachFrom cmp k body n x

end Splay

end MuslBsd.Trees
