import MuslBsd.Support.Chains

/-! The lists and queues of `queue.h` whose pointers are stored as they are: `SLIST`, `LIST`, `SIMPLEQ`,
`STAILQ` and `TAILQ`. They differ in the back pointers that they have. -/
namespace MuslBsd.Queue.Plain
open MuslBsd.Support

inductive Kind where
  | slist
  | list
  | simpleq
  | stailq
  | tailq
  deriving DecidableEq

variable {η α : Type*}

/-- `le_prev` and `tqe_prev` of an element, `sqh_last`, `stqh_last` and `tqh_last` of a head. -/
def Kind.keeps (t : Kind) : Cell η α → Bool
  | .elm _ => t = .list ∨ t = .tailq
  | .head _ => t = .simpleq ∨ t = .stailq ∨ t = .tailq

/-- `SLIST_FIRST`, `LIST_FIRST`, `SIMPLEQ_FIRST`, `STAILQ_FIRST` and `TAILQ_FIRST`. -/
def first (m : Cells η α) (h : η) : Option α := m.next (.head h)

/-- `SLIST_NEXT`, `LIST_NEXT`, `SIMPLEQ_NEXT`, `STAILQ_NEXT` and `TAILQ_NEXT`. -/
def next (m : Cells η α) (elm : α) : Option α := m.next (.elm elm)

/-- `SLIST_EMPTY`, `LIST_EMPTY`, `SIMPLEQ_EMPTY`, `STAILQ_EMPTY` and `TAILQ_EMPTY`. -/
def isEmpty (m : Cells η α) (h : η) : Bool := (first m h).isNone

/-- `STAILQ_LAST`. The address in `stqh_last` is that of the link of the element. -/
def stailqLast (m : Cells η α) (h : η) : Option α :=
  if isEmpty m h then none
  else match m.back (.head h) with
    | .elm a => some a
    | .head _ => none

/-- `TAILQ_LAST`. The cell that `tqh_last` leads to is read as a head, also where it is an element. -/
def tailqLast (m : Cells η α) (h : η) : Option α := m.next (m.back (m.back (.head h)))

/-- `TAILQ_PREV`. -/
def tailqPrev (m : Cells η α) (elm : α) : Option α := m.next (m.back (m.back (.elm elm)))

/-- `SLIST_FOREACH`, `LIST_FOREACH`, `SIMPLEQ_FOREACH`, `STAILQ_FOREACH` and `TAILQ_FOREACH`. -/
def forEach (m : Cells η α) (k : ℕ) (h : η) : Option (List α) := visit (next m) k (first m h)

/-- `TAILQ_FOREACH_REVERSE`. -/
def tailqForEachReverse (m : Cells η α) (k : ℕ) (h : η) : Option (List α) :=
  visit (tailqPrev m) k (tailqLast m h)

variable [DecidableEq η] [DecidableEq α] (t : Kind)

/-- Write the back pointer of `elm`, if queues of this kind have one. -/
def setPrev (elm : α) (c : Cell η α) (m : Cells η α) : Cells η α :=
  if t.keeps (.elm elm : Cell η α) then m.setBack (.elm elm) c else m

/-- Write the back pointer of the element `q`, or for the end of the list the one of the head, if
queues of this kind have it. -/
def setRear (h : η) (q : Option α) (c : Cell η α) (m : Cells η α) : Cells η α :=
  if t.keeps (rear h q) then m.setBack (rear h q) c else m

/-- `SLIST_INIT`, `LIST_INIT`, `SIMPLEQ_INIT`, `STAILQ_INIT` and `TAILQ_INIT`. -/
def init (h : η) (m : Cells η α) : Cells η α := setRear t h none (.head h) (m.setNext (.head h) none)

/-- Insert `elm` behind the cell `p`. -/
def insertNext (h : η) (p : Cell η α) (elm : α) (m : Cells η α) : Cells η α :=
  let m := m.setNext (.elm elm) (m.next p)
  let m := setRear t h (next m elm) (.elm elm) m
  let m := m.setNext p (some elm)
  setPrev t elm p m

/-- `SLIST_INSERT_HEAD`, `LIST_INSERT_HEAD`, `SIMPLEQ_INSERT_HEAD`, `STAILQ_INSERT_HEAD` and
`TAILQ_INSERT_HEAD`. -/
def insertHead (h : η) (elm : α) (m : Cells η α) : Cells η α := insertNext t h (.head h) elm m

/-- `SLIST_INSERT_AFTER`, `LIST_INSERT_AFTER`, `SIMPLEQ_INSERT_AFTER`, `STAILQ_INSERT_AFTER` and
`TAILQ_INSERT_AFTER`. -/
def insertAfter (h : η) (listelm elm : α) (m : Cells η α) : Cells η α :=
  insertNext t h (.elm listelm) elm m

/-- `SIMPLEQ_INSERT_TAIL`, `STAILQ_INSERT_TAIL` and `TAILQ_INSERT_TAIL`. -/
def insertTail (h : η) (elm : α) (m : Cells η α) : Cells η α :=
  let m := m.setNext (.elm elm) none
  let m := setPrev t elm (m.back (.head h)) m
  let m := m.setNext (m.back (.head h)) (some elm)
  m.setBack (.head h) (.elm elm)

/-- `LIST_INSERT_BEFORE` and `TAILQ_INSERT_BEFORE`. -/
def insertBefore (listelm elm : α) (m : Cells η α) : Cells η α :=
  let m := m.setBack (.elm elm) (m.back (.elm listelm))
  let m := m.setNext (.elm elm) (some listelm)
  let m := m.setNext (m.back (.elm listelm)) (some elm)
  m.setBack (.elm listelm) (.elm elm)

/-- `LIST_REMOVE` and `TAILQ_REMOVE`. -/
def removeLinked (h : η) (elm : α) (m : Cells η α) : Cells η α :=
  let m := setRear t h (next m elm) (m.back (.elm elm)) m
  m.setNext (m.back (.elm elm)) (next m elm)

/-- `LIST_REPLACE` and `TAILQ_REPLACE`. -/
def replace (h : η) (elm elm2 : α) (m : Cells η α) : Cells η α :=
  let m := m.setNext (.elm elm2) (next m elm)
  let m := setRear t h (next m elm2) (.elm elm2) m
  let m := m.setBack (.elm elm2) (m.back (.elm elm))
  m.setNext (m.back (.elm elm2)) (some elm2)

/-- Remove the element behind the cell `p`, where there has to be one. -/
def removeNext (h : η) (p : Cell η α) (m : Cells η α) : Option (Cells η α) :=
  (m.next p).map fun elm =>
    let m := m.setNext p (next m elm)
    setRear t h (m.next p) p m

/-- `SLIST_REMOVE_HEAD`, `SIMPLEQ_REMOVE_HEAD` and `STAILQ_REMOVE_HEAD`. -/
def removeHead (h : η) (m : Cells η α) : Option (Cells η α) := removeNext t h (.head h) m

/-- `SLIST_REMOVE_AFTER`, `SIMPLEQ_REMOVE_AFTER` and `STAILQ_REMOVE_AFTER`. -/
def removeAfter (h : η) (elm : α) (m : Cells η α) : Option (Cells η α) := removeNext t h (.elm elm) m

/-- The loop of `SLIST_REMOVE` and `STAILQ_REMOVE`, in at most `k` rounds. -/
def precursor (m : Cells η α) (elm : α) : ℕ → α → Option α
  | 0, _ => none
  | k + 1, curelm =>
    if next m curelm = some elm then some curelm else (next m curelm).bind (precursor m elm k)

/-- `SLIST_REMOVE` and `STAILQ_REMOVE`. -/
def removeFound (k : ℕ) (h : η) (elm : α) (m : Cells η α) : Option (Cells η α) :=
  if first m h = some elm then removeHead t h m
  else ((first m h).bind (precursor m elm k)).bind fun curelm => removeAfter t h curelm m

/-- `SIMPLEQ_CONCAT`, `STAILQ_CONCAT` and `TAILQ_CONCAT`. -/
def concat (h₁ h₂ : η) (m : Cells η α) : Cells η α :=
  match first m h₂ with
  | none => m
  | some a =>
    let m := m.setNext (m.back (.head h₁)) (some a)
    let m := setPrev t a (m.back (.head h₁)) m
    let m := m.setBack (.head h₁) (m.back (.head h₂))
    init t h₂ m

/-! ### Loops that may remove the element that they visit -/

/-- A loop that takes the element after `x` with `step` before its body is run on `x`, for at most `n`
elements, and the elements it visits. -/
def forEachSafeFrom (step : Cells η α → α → Option α) (body : Cells η α → α → Option (Cells η α)) :
    ℕ → Cells η α → Option α → Option (Cells η α × List α)
  | _, m, none => some (m, [])
  | 0, _, some _ => none
  | n + 1, m, some x =>
    (body m x).bind fun m' => (forEachSafeFrom step body n m' (step m x)).map fun r => (r.1, x :: r.2)

/-- `SLIST_FOREACH_SAFE`, `LIST_FOREACH_SAFE`, `SIMPLEQ_FOREACH_SAFE`, `STAILQ_FOREACH_SAFE` and
`TAILQ_FOREACH_SAFE`. -/
def forEachSafe (n : ℕ) (h : η) (body : Cells η α → α → Option (Cells η α)) (m : Cells η α) :
    Option (Cells η α × List α) :=
  forEachSafeFrom next body n m (first m h)

/-- `TAILQ_FOREACH_REVERSE_SAFE`. -/
def tailqForEachReverseSafe (n : ℕ) (h : η) (body : Cells η α → α → Option (Cells η α)) (m : Cells η α) :
    Option (Cells η α × List α) :=
  forEachSafeFrom tailqPrev body n m (tailqLast m h)

/-! ### Calls -/

/-- A use of a macro. The head is named also where the macro is not told it. -/
inductive Call (η α : Type*) where
  | init (h : η)
  | insertHead (h : η) (elm : α)
  | insertTail (h : η) (elm : α)
  | insertAfter (h : η) (listelm elm : α)
  | insertBefore (h : η) (listelm elm : α)
  | removeHead (h : η)
  | removeAfter (h : η) (elm : α)
  | remove (h : η) (elm : α)
  | replace (h : η) (elm elm2 : α)
  | concat (h₁ h₂ : η)
  | first (h : η)
  | next (h : η) (elm : α)
  | last (h : η)
  | prev (h : η) (elm : α)

/-- The macros that there are for a kind of queue. -/
def Kind.offers : Kind → Call η α → Bool
  | t, .insertTail .. => t = .simpleq ∨ t = .stailq ∨ t = .tailq
  | t, .insertBefore .. => t = .list ∨ t = .tailq
  | t, .removeHead .. => t = .slist ∨ t = .simpleq ∨ t = .stailq
  | t, .removeAfter .. => t = .slist ∨ t = .simpleq ∨ t = .stailq
  | t, .remove .. => t ≠ .simpleq
  | t, .replace .. => t = .list ∨ t = .tailq
  | t, .concat .. => t = .simpleq ∨ t = .stailq ∨ t = .tailq
  | t, .last .. => t = .stailq ∨ t = .tailq
  | t, .prev .. => t = .tailq
  | _, _ => true

/-- What a macro does to the memory, and what it gives. Loops have at most `k` rounds. -/
def Call.run (k : ℕ) : Call η α → Cells η α → Option (Cells η α × Option α)
  | .init h, m => some (Plain.init t h m, none)
  | .insertHead h elm, m => some (Plain.insertHead t h elm m, none)
  | .insertTail h elm, m => some (Plain.insertTail t h elm m, none)
  | .insertAfter h listelm elm, m => some (Plain.insertAfter t h listelm elm m, none)
  | .insertBefore _ listelm elm, m => some (Plain.insertBefore listelm elm m, none)
  | .removeHead h, m => (Plain.removeHead t h m).map fun m => (m, none)
  | .removeAfter h elm, m => (Plain.removeAfter t h elm m).map fun m => (m, none)
  | .remove h elm, m =>
    if t = .slist ∨ t = .stailq then (removeFound t k h elm m).map fun m => (m, none)
    else some (removeLinked t h elm m, none)
  | .replace h elm elm2, m => some (Plain.replace t h elm elm2 m, none)
  | .concat h₁ h₂, m => some (Plain.concat t h₁ h₂ m, none)
  | .first h, m => some (m, Plain.first m h)
  | .next _ elm, m => some (m, Plain.next m elm)
  | .last h, m => some (m, if t = .stailq then stailqLast m h else tailqLast m h)
  | .prev _ elm, m => some (m, tailqPrev m elm)

/-- A body of a loop that removes the elements for which `u` holds, and leaves in their memory what `junk`
says. -/
def sweep (k : ℕ) (h : η) (u : α → Bool) (junk : α → Option α × Cell η α) (m : Cells η α) (x : α) :
    Option (Cells η α) :=
  if u x then ((Call.remove h x).run t k m).map fun r => (r.1.setNext (.elm x) (junk x).1).setBack (.elm x) (junk x).2
  else some m

end MuslBsd.Queue.Plain
