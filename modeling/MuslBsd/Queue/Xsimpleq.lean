import Mathlib.Data.List.Infix
import MuslBsd.Support.Links

/-! The XOR simple queue of `queue.h`: a singly-linked tail queue whose pointers are stored under a
cookie. -/
namespace MuslBsd.Queue
open MuslBsd.Support

variable {w : ℕ}

abbrev Addr (w : ℕ) : Type := BitVec w

/-- A queue in memory. The link of an element is at the address of the element, and `sqx_first` at
the address of the head. -/
structure Xsimpleq (w : ℕ) where
  /-- The pointers that are stored, before they are decoded. -/
  mem : Addr w → Addr w
  head : Addr w
  sqxLast : Addr w
  sqxCookie : BitVec w

def NULL : Addr w := 0

namespace Xsimpleq

variable (q : Xsimpleq w)

/-- `XSIMPLEQ_XOR`. -/
def xor (ptr : Addr w) : Addr w := q.sqxCookie ^^^ ptr

/-- `XSIMPLEQ_FIRST`. -/
def first : Addr w := q.xor (q.mem q.head)

/-- `XSIMPLEQ_EMPTY`. -/
def isEmpty : Bool := q.first == NULL

/-- `XSIMPLEQ_NEXT`. -/
def next (elm : Addr w) : Addr w := q.xor (q.mem elm)

/-- The elements that `XSIMPLEQ_FOREACH` visits, in at most `k` rounds. -/
def forEach (k : ℕ) : Option (List (Addr w)) := follow q.next NULL k q.first

/-- Store `ptr`, as it is, into the link at `a`. -/
def store (a ptr : Addr w) : Xsimpleq w := { q with mem := Function.update q.mem a ptr }

def setLast (ptr : Addr w) : Xsimpleq w := { q with sqxLast := ptr }

/-- `XSIMPLEQ_INIT` with the cookie that `queue_getrandom` gives. -/
def init (mem : Addr w → Addr w) (head : Addr w) (cookie : BitVec w) : Xsimpleq w where
  mem := Function.update mem head (cookie ^^^ NULL)
  head := head
  sqxLast := cookie ^^^ head
  sqxCookie := cookie

/-- Insert `elm` behind the link at `a`. -/
def insertAt (a elm : Addr w) : Xsimpleq w :=
  let q := q.store elm (q.mem a)
  let q := if q.mem elm = q.xor NULL then q.setLast (q.xor elm) else q
  q.store a (q.xor elm)

/-- Remove the element behind the link at `a`. -/
def removeAt (a : Addr w) : Xsimpleq w :=
  let tmp := q.xor (q.mem a)
  let q := q.store a (q.xor (q.mem tmp))
  if q.mem a = q.xor NULL then q.setLast (q.xor a) else q

/-- `XSIMPLEQ_INSERT_HEAD`. -/
def insertHead (elm : Addr w) : Xsimpleq w := q.insertAt q.head elm

/-- `XSIMPLEQ_INSERT_TAIL`. -/
def insertTail (elm : Addr w) : Xsimpleq w :=
  let q := q.store elm (q.xor NULL)
  let q := q.store (q.xor q.sqxLast) (q.xor elm)
  q.setLast (q.xor elm)

/-- `XSIMPLEQ_INSERT_AFTER`. -/
def insertAfter (listelm elm : Addr w) : Xsimpleq w := q.insertAt listelm elm

/-- `XSIMPLEQ_REMOVE_HEAD`. -/
def removeHead : Xsimpleq w := q.removeAt q.head

/-- `XSIMPLEQ_REMOVE_AFTER`. -/
def removeAfter (elm : Addr w) : Xsimpleq w := q.removeAt elm

end Xsimpleq

/-! ### Sequences of operations -/

inductive Op (w : ℕ)
  | insertHead (elm : Addr w)
  | insertTail (elm : Addr w)
  | insertAfter (listelm elm : Addr w)
  | removeHead
  | removeAfter (elm : Addr w)
  deriving DecidableEq, Repr

def Xsimpleq.step (q : Xsimpleq w) : Op w → Xsimpleq w
  | .insertHead elm => q.insertHead elm
  | .insertTail elm => q.insertTail elm
  | .insertAfter listelm elm => q.insertAfter listelm elm
  | .removeHead => q.removeHead
  | .removeAfter elm => q.removeAfter elm

def Xsimpleq.run (q : Xsimpleq w) (ops : List (Op w)) : Xsimpleq w := ops.foldl step q

/-- `elm` behind `listelm`. -/
def insertBehind (listelm elm : Addr w) : List (Addr w) → List (Addr w)
  | [] => []
  | a :: l => if a = listelm then a :: elm :: l else a :: insertBehind listelm elm l

/-- Without the element behind `elm`. -/
def removeBehind (elm : Addr w) : List (Addr w) → List (Addr w)
  | [] => []
  | a :: l => if a = elm then a :: l.tail else a :: removeBehind elm l

namespace Op

/-- What the operation does to the list of the elements. -/
def onList : Op w → List (Addr w) → List (Addr w)
  | .insertHead elm, l => elm :: l
  | .insertTail elm, l => l ++ [elm]
  | .insertAfter listelm elm, l => insertBehind listelm elm l
  | .removeHead, l => l.tail
  | .removeAfter elm, l => removeBehind elm l

/-- `elm` is an element that the list of the queue at `head` does not have yet. -/
def New (head : Addr w) (l : List (Addr w)) (elm : Addr w) : Prop :=
  elm ≠ NULL ∧ elm ≠ head ∧ elm ∉ l

/-- What the caller has to see to. -/
def Allowed (head : Addr w) (l : List (Addr w)) : Op w → Prop
  | .insertHead elm => New head l elm
  | .insertTail elm => New head l elm
  | .insertAfter listelm elm => listelm ∈ l ∧ New head l elm
  | .removeHead => l ≠ []
  | .removeAfter elm => ∃ pre x post, l = pre ++ elm :: x :: post

def Removes : Op w → Prop
  | .removeHead | .removeAfter _ => True
  | _ => False

/-- The elements after a sequence of operations. -/
def elements (ops : List (Op w)) : List (Addr w) := ops.foldl (fun l op => op.onList l) []

/-- Every operation of the sequence is allowed where it is done. -/
def AllAllowed (head : Addr w) (ops : List (Op w)) : Prop :=
  ∀ pre op, pre ++ [op] <+: ops → op.Allowed head (elements pre)

end Op

/-! ### What a queue is -/

/-- The queue is the list `l`: a traversal gives it, each link is stored under the cookie, and so is
the address of the last one. -/
structure Xsimpleq.Holds (q : Xsimpleq w) (l : List (Addr w)) : Prop where
  forEach : ∀ k, l.length ≤ k → q.forEach k = some l
  isEmpty : q.isEmpty = true ↔ l = []
  links : ∀ pre a post, q.head :: l = pre ++ a :: post → q.mem a = q.xor (post.headD NULL)
  sqxLast : (q.head :: l).getLast? = some (q.xor q.sqxLast)

/-- The invariant: the links of the head and of the elements, decoded, are a chain. -/
structure Xsimpleq.Chains (q : Xsimpleq w) (l : List (Addr w)) : Prop where
  linked : Threaded q.next NULL (q.head :: l)
  nodup : (q.head :: l).Nodup
  nonnull : NULL ∉ l
  sqxLast : (q.head :: l).getLast? = some (q.xor q.sqxLast)

namespace Xsimpleq

variable {q : Xsimpleq w} {l pre post : List (Addr w)} {a c e elm : Addr w}

@[simp] theorem xor_xor (ptr : Addr w) : q.xor (q.xor ptr) = ptr := by
  unfold xor
  rw [← BitVec.xor_assoc, BitVec.xor_self, BitVec.zero_xor]

theorem xor_inj {p p' : Addr w} (h : q.xor p = q.xor p') : p = p' := by
  rw [← q.xor_xor p, h, xor_xor]

@[simp] theorem store_xor (ptr p : Addr w) : (q.store a ptr).xor p = q.xor p := rfl
@[simp] theorem store_head (ptr : Addr w) : (q.store a ptr).head = q.head := rfl
@[simp] theorem store_sqxLast (ptr : Addr w) : (q.store a ptr).sqxLast = q.sqxLast := rfl
@[simp] theorem setLast_xor (ptr p : Addr w) : (q.setLast ptr).xor p = q.xor p := rfl
@[simp] theorem setLast_head (ptr : Addr w) : (q.setLast ptr).head = q.head := rfl
@[simp] theorem setLast_mem (ptr : Addr w) : (q.setLast ptr).mem = q.mem := rfl
@[simp] theorem setLast_sqxLast (ptr : Addr w) : (q.setLast ptr).sqxLast = ptr := rfl
@[simp] theorem setLast_next (ptr : Addr w) : (q.setLast ptr).next = q.next := rfl

@[simp] theorem store_mem_self (ptr : Addr w) : (q.store a ptr).mem a = ptr := Function.update_self ..

theorem store_mem_of_ne {b : Addr w} (ptr : Addr w) (h : b ≠ a) : (q.store a ptr).mem b = q.mem b :=
  Function.update_of_ne h ..

theorem Chains.holds (h : q.Chains l) : q.Holds l where
  forEach k hk := by
    have hfirst : q.first = l.headD NULL := h.linked.1
    unfold forEach
    rw [hfirst]
    exact h.linked.2.follow_eq h.nonnull hk
  isEmpty := by
    have hfirst : q.first = l.headD NULL := h.linked.1
    unfold isEmpty
    rw [beq_iff_eq, hfirst]
    cases l with
    | nil => exact iff_of_true rfl rfl
    | cons x l =>
      apply iff_of_false
      · intro hnull
        exact h.nonnull (hnull ▸ List.mem_cons_self ..)
      · exact List.cons_ne_nil _ _
  links pre a post heq := by
    have hlinked := h.linked
    rw [heq] at hlinked
    have hnext : q.xor (q.mem a) = post.headD NULL := hlinked.next_eq
    rw [← hnext, xor_xor]
  sqxLast := h.sqxLast

theorem init_chains (mem : Addr w → Addr w) (head : Addr w) (cookie : BitVec w) :
    (init mem head cookie).Chains [] where
  linked := by
    have hnext : (init mem head cookie).next head = NULL := by
      show cookie ^^^ Function.update mem head (cookie ^^^ NULL) head = NULL
      rw [Function.update_self, ← BitVec.xor_assoc, BitVec.xor_self, BitVec.zero_xor]
    exact ⟨hnext, trivial⟩
  nodup := List.nodup_singleton _
  nonnull := List.not_mem_nil
  sqxLast := by
    show some head = some (cookie ^^^ (cookie ^^^ head))
    rw [← BitVec.xor_assoc, BitVec.xor_self, BitVec.zero_xor]

/-! ### One operation -/

/-- A link holds the encoded NULL just when nothing stands behind it. -/
theorem Chains.at_end_iff (h : q.Chains l) (hcells : q.head :: l = pre ++ c :: post) :
    q.mem c = q.xor NULL ↔ post = [] := by
  have hlinked := h.linked
  rw [hcells] at hlinked
  have hnext : q.xor (q.mem c) = post.headD NULL := hlinked.next_eq
  constructor
  · intro hnull
    rw [hnull, xor_xor] at hnext
    cases post with
    | nil => rfl
    | cons x post =>
      have hx : x ∈ l := by
        cases pre with
        | nil =>
          obtain ⟨-, rfl⟩ := List.cons_eq_cons.mp hcells
          exact List.mem_cons_self ..
        | cons p pre =>
          obtain ⟨-, rfl⟩ := List.cons_eq_cons.mp hcells
          simp
      have hxnull : NULL = x := hnext
      exact absurd (hxnull ▸ hx) h.nonnull
  · intro hnil
    rw [hnil] at hnext
    have hnull : q.xor (q.mem c) = NULL := hnext
    rw [← hnull, xor_xor]

theorem perm_behind (pre post : List (Addr w)) (c elm : Addr w) :
    (pre ++ c :: elm :: post).Perm (elm :: (pre ++ c :: post)) := by
  have hmiddle : ((pre ++ [c]) ++ elm :: post).Perm (elm :: ((pre ++ [c]) ++ post)) :=
    List.perm_middle
  simpa using hmiddle

theorem insertAt_eq (c elm : Addr w) : q.insertAt c elm = { q with
    mem := Function.update (Function.update q.mem elm (q.mem c)) c (q.xor elm)
    sqxLast := if q.mem c = q.xor NULL then q.xor elm else q.sqxLast } := by
  unfold Xsimpleq.insertAt
  dsimp only
  rw [store_mem_self, store_xor]
  split
  · rfl
  · rfl

theorem Chains.insertAt (h : q.Chains l) (hcells : q.head :: l = pre ++ c :: post)
    (hnonnull : elm ≠ NULL) (hnew : elm ∉ q.head :: l) {l' : List (Addr w)}
    (hcells' : q.head :: l' = pre ++ c :: elm :: post) : (q.insertAt c elm).Chains l' := by
  have hend := h.at_end_iff hcells
  have hlinked := h.linked
  have hnodup := h.nodup
  have hold := h.sqxLast
  rw [hcells] at hlinked hnodup hold
  have hnew' : elm ∉ pre ++ c :: post := hcells ▸ hnew
  have hne : elm ≠ c := by
    intro heq
    apply hnew'
    rw [heq]
    simp
  have hperm := perm_behind pre post c elm
  have hall : (q.head :: l').Perm (q.head :: elm :: l) := by
    rw [hcells']
    apply hperm.trans
    rw [← hcells]
    exact List.Perm.swap ..
  rw [insertAt_eq]
  refine ⟨?_, ?_, ?_, ?_⟩
  · show Threaded _ NULL (q.head :: l')
    rw [hcells']
    apply hlinked.insert hnodup hnew'
    · show q.xor (Function.update (Function.update q.mem elm (q.mem c)) c (q.xor elm) elm) = q.next c
      rw [Function.update_of_ne hne, Function.update_self]
      rfl
    · show q.xor (Function.update (Function.update q.mem elm (q.mem c)) c (q.xor elm) c) = elm
      rw [Function.update_self, xor_xor]
    · intro a hac hae
      show q.xor (Function.update (Function.update q.mem elm (q.mem c)) c (q.xor elm) a) = q.next a
      rw [Function.update_of_ne hac, Function.update_of_ne hae]
      rfl
  · show (q.head :: l').Nodup
    rw [hcells']
    exact hperm.symm.nodup (List.nodup_cons.mpr ⟨hnew', hnodup⟩)
  · intro hmem
    rcases List.mem_cons.mp (hall.cons_inv.subset hmem) with heq | hmem
    · exact hnonnull heq.symm
    · exact h.nonnull hmem
  · show (q.head :: l').getLast? = some (q.xor (if q.mem c = q.xor NULL then _ else _))
    rw [hcells']
    cases post with
    | nil =>
      rw [if_pos (hend.mpr rfl), xor_xor]
      simp
    | cons x post =>
      rw [if_neg (mt hend.mp (List.cons_ne_nil _ _)), ← hold]
      simp

/-- At the end of the list both ways to insert are the same. -/
theorem Chains.insertTail (h : q.Chains l) (hnonnull : elm ≠ NULL) (hnew : elm ∉ q.head :: l) :
    (q.insertTail elm).Chains (l ++ [elm]) := by
  obtain ⟨pre, c, hcells⟩ : ∃ pre c, q.head :: l = pre ++ [c] := by
    rcases List.eq_nil_or_concat (q.head :: l) with hnil | ⟨pre, c, hcells⟩
    · exact absurd hnil (List.cons_ne_nil _ _)
    · exact ⟨pre, c, hcells.trans (List.concat_eq_append ..)⟩
  have hlast : q.xor q.sqxLast = c := by
    have hold := h.sqxLast
    rw [hcells, List.getLast?_concat] at hold
    exact (Option.some.inj hold).symm
  have hnull : q.mem c = q.xor NULL := (h.at_end_iff hcells).mpr rfl
  have htail : q.insertTail elm = q.insertAt c elm := by
    rw [insertAt_eq, if_pos hnull, hnull, ← hlast]
    rfl
  rw [htail]
  apply h.insertAt hcells hnonnull hnew
  rw [← List.cons_append, hcells]
  simp

/-- What a removal stores: the link of the removed element, decoded. -/
theorem removeAt_mem (hlink : q.mem c = q.xor elm) :
    (q.removeAt c).mem c = q.xor (q.mem elm) := by
  unfold Xsimpleq.removeAt
  dsimp only
  rw [hlink, xor_xor, store_mem_self]
  split
  · exact store_mem_self _
  · exact store_mem_self _

/-- Without a cookie there is no difference between a link and what it encodes. -/
theorem Chains.removeAt (h : q.Chains l) (hcookie : q.sqxCookie = 0)
    (hcells : q.head :: l = pre ++ c :: elm :: post) {l' : List (Addr w)}
    (hcells' : q.head :: l' = pre ++ c :: post) : (q.removeAt c).Chains l' := by
  have hxor : ∀ p, q.xor p = p := by
    intro p
    unfold xor
    rw [hcookie]
    exact BitVec.zero_xor
  have hlinked := h.linked
  have hnodup := h.nodup
  have hold := h.sqxLast
  rw [hcells] at hlinked hnodup hold
  have hlink : q.mem c = elm := by
    have hnext : q.xor (q.mem c) = elm := hlinked.next_eq
    rw [hxor] at hnext
    exact hnext
  have hcells₁ : q.head :: l = (pre ++ [c]) ++ elm :: post := by
    rw [hcells]
    simp
  have hend : q.mem elm = q.xor NULL ↔ post = [] := h.at_end_iff hcells₁
  have hremove : q.removeAt c = { q with
      mem := Function.update q.mem c (q.mem elm)
      sqxLast := if q.mem elm = q.xor NULL then c else q.sqxLast } := by
    unfold Xsimpleq.removeAt
    dsimp only
    rw [store_mem_self, store_xor, store_xor, hxor (q.mem c), hlink, hxor (q.mem elm), hxor c]
    split
    · rfl
    · rfl
  rw [hremove]
  have hperm := perm_behind pre post c elm
  have hall : (q.head :: l).Perm (q.head :: elm :: l') := by
    rw [hcells]
    apply hperm.trans
    rw [← hcells']
    exact List.Perm.swap ..
  refine ⟨?_, ?_, ?_, ?_⟩
  · show Threaded _ NULL (q.head :: l')
    rw [hcells']
    apply hlinked.remove hnodup
    · show q.xor (Function.update q.mem c (q.mem elm) c) = q.next elm
      rw [Function.update_self]
      rfl
    · intro a hac
      show q.xor (Function.update q.mem c (q.mem elm) a) = q.next a
      rw [Function.update_of_ne hac]
      rfl
  · show (q.head :: l').Nodup
    rw [hcells']
    exact (List.nodup_cons.mp (hperm.nodup hnodup)).2
  · intro hmem
    exact h.nonnull (hall.cons_inv.symm.subset (List.mem_cons_of_mem _ hmem))
  · show (q.head :: l').getLast? = some (q.xor (if q.mem elm = q.xor NULL then _ else _))
    rw [hcells']
    cases post with
    | nil =>
      rw [if_pos (hend.mpr rfl), hxor]
      simp
    | cons x post =>
      rw [if_neg (mt hend.mp (List.cons_ne_nil _ _)), ← hold]
      simp

/-! ### Runs -/

theorem insertBehind_eq (hnodup : (pre ++ c :: post).Nodup) :
    insertBehind c elm (pre ++ c :: post) = pre ++ c :: elm :: post := by
  induction pre with
  | nil => exact if_pos rfl
  | cons p pre ih =>
    have hne : ¬p = c := by
      intro heq
      apply (List.nodup_cons.mp hnodup).1
      rw [heq]
      simp
    have hrest := ih (List.nodup_cons.mp hnodup).2
    rw [List.cons_append, insertBehind, if_neg hne, hrest]
    rfl

theorem removeBehind_eq (hnodup : (pre ++ c :: elm :: post).Nodup) :
    removeBehind c (pre ++ c :: elm :: post) = pre ++ c :: post := by
  induction pre with
  | nil => exact if_pos rfl
  | cons p pre ih =>
    have hne : ¬p = c := by
      intro heq
      apply (List.nodup_cons.mp hnodup).1
      rw [heq]
      simp
    have hrest := ih (List.nodup_cons.mp hnodup).2
    rw [List.cons_append, removeBehind, if_neg hne, hrest]
    rfl

theorem removeAt_fixed (a : Addr w) :
    (q.removeAt a).head = q.head ∧ (q.removeAt a).sqxCookie = q.sqxCookie := by
  unfold Xsimpleq.removeAt
  dsimp only
  split
  · exact ⟨rfl, rfl⟩
  · exact ⟨rfl, rfl⟩

/-- No operation moves the head or changes the cookie. -/
theorem step_fixed (q : Xsimpleq w) (op : Op w) :
    (q.step op).head = q.head ∧ (q.step op).sqxCookie = q.sqxCookie := by
  cases op with
  | insertHead elm =>
    show (q.insertAt _ _).head = _ ∧ (q.insertAt _ _).sqxCookie = _
    rw [insertAt_eq]
    exact ⟨rfl, rfl⟩
  | insertTail elm => exact ⟨rfl, rfl⟩
  | insertAfter listelm elm =>
    show (q.insertAt _ _).head = _ ∧ (q.insertAt _ _).sqxCookie = _
    rw [insertAt_eq]
    exact ⟨rfl, rfl⟩
  | removeHead => exact removeAt_fixed q.head
  | removeAfter elm => exact removeAt_fixed elm

/-- One operation keeps the chain, unless it removes an element under a cookie. -/
theorem Chains.step (h : q.Chains l) {op : Op w} (hallowed : op.Allowed q.head l)
    (hok : q.sqxCookie = 0 ∨ ¬op.Removes) : (q.step op).Chains (op.onList l) := by
  have hnodup : l.Nodup := (List.nodup_cons.mp h.nodup).2
  have hfresh : ∀ {elm}, Op.New q.head l elm → elm ∉ q.head :: l := by
    intro elm hnew hmem
    rcases List.mem_cons.mp hmem with heq | hmem
    · exact hnew.2.1 heq
    · exact hnew.2.2 hmem
  cases op with
  | insertHead elm =>
    have hcells : q.head :: l = [] ++ q.head :: l := rfl
    exact h.insertAt hcells hallowed.1 (hfresh hallowed) rfl
  | insertTail elm => exact h.insertTail hallowed.1 (hfresh hallowed)
  | insertAfter listelm elm =>
    obtain ⟨hmem, hnew⟩ := hallowed
    obtain ⟨pre, post, rfl⟩ := List.append_of_mem hmem
    show (q.insertAt listelm elm).Chains (insertBehind listelm elm (pre ++ listelm :: post))
    rw [insertBehind_eq hnodup]
    have hcells : q.head :: (pre ++ listelm :: post) = (q.head :: pre) ++ listelm :: post := rfl
    exact h.insertAt hcells hnew.1 (hfresh hnew) rfl
  | removeHead =>
    have hcookie : q.sqxCookie = 0 := hok.resolve_right fun hno => hno trivial
    cases l with
    | nil => exact absurd rfl hallowed
    | cons x l =>
      have hcells : q.head :: x :: l = [] ++ q.head :: x :: l := rfl
      exact h.removeAt hcookie hcells rfl
  | removeAfter elm =>
    have hcookie : q.sqxCookie = 0 := hok.resolve_right fun hno => hno trivial
    obtain ⟨pre, x, post, rfl⟩ := hallowed
    show (q.removeAt elm).Chains (removeBehind elm (pre ++ elm :: x :: post))
    rw [removeBehind_eq hnodup]
    have hcells : q.head :: (pre ++ elm :: x :: post) = (q.head :: pre) ++ elm :: x :: post := rfl
    exact h.removeAt hcookie hcells rfl

/-- A removal stores a link that is not encoded: no harm is done only where both are the same. -/
theorem Holds.cookie_eq_zero {l' : List (Addr w)} (h : q.Holds l)
    (hcells : q.head :: l = pre ++ c :: elm :: post) (h' : (q.removeAt c).Holds l')
    (hcells' : q.head :: l' = pre ++ c :: post) : q.sqxCookie = 0 := by
  have hfixed := removeAt_fixed (q := q) c
  have hlink : q.mem c = q.xor elm := h.links pre c (elm :: post) hcells
  have hnext : q.mem elm = q.xor (post.headD NULL) :=
    h.links (pre ++ [c]) elm post (by rw [hcells]; simp)
  have hafter : (q.removeAt c).mem c = (q.removeAt c).xor (post.headD NULL) :=
    h'.links pre c post (by rw [hfixed.1, hcells'])
  have hxor : (q.removeAt c).xor (post.headD NULL) = q.xor (post.headD NULL) := by
    unfold xor
    rw [hfixed.2]
  rw [removeAt_mem hlink, hnext, xor_xor, hxor] at hafter
  calc q.sqxCookie = q.sqxCookie ^^^ (post.headD NULL ^^^ post.headD NULL) := by
        rw [BitVec.xor_self, BitVec.xor_zero]
    _ = q.xor (post.headD NULL) ^^^ post.headD NULL := (BitVec.xor_assoc ..).symm
    _ = post.headD NULL ^^^ post.headD NULL := by rw [← hafter]
    _ = 0 := BitVec.xor_self

theorem Holds.cookie_of_removes (h : q.Holds l) {op : Op w} (hallowed : op.Allowed q.head l)
    (hnodup : l.Nodup) (hremoves : op.Removes) (h' : (q.step op).Holds (op.onList l)) :
    q.sqxCookie = 0 := by
  cases op with
  | insertHead elm => exact hremoves.elim
  | insertTail elm => exact hremoves.elim
  | insertAfter listelm elm => exact hremoves.elim
  | removeHead =>
    cases l with
    | nil => exact absurd rfl hallowed
    | cons x l =>
      have hcells : q.head :: x :: l = [] ++ q.head :: x :: l := rfl
      exact h.cookie_eq_zero hcells h' rfl
  | removeAfter elm =>
    obtain ⟨pre, x, post, rfl⟩ := hallowed
    have hremoved : (q.removeAt elm).Holds (removeBehind elm (pre ++ elm :: x :: post)) := h'
    rw [removeBehind_eq hnodup] at hremoved
    have hcells : q.head :: (pre ++ elm :: x :: post) = (q.head :: pre) ++ elm :: x :: post := rfl
    exact h.cookie_eq_zero hcells hremoved rfl

theorem run_concat (q : Xsimpleq w) (ops : List (Op w)) (op : Op w) :
    q.run (ops ++ [op]) = (q.run ops).step op :=
  List.foldl_concat ..

theorem run_fixed (q : Xsimpleq w) (ops : List (Op w)) :
    (q.run ops).head = q.head ∧ (q.run ops).sqxCookie = q.sqxCookie := by
  induction ops using List.reverseRecOn with
  | nil => exact ⟨rfl, rfl⟩
  | append_singleton ops op ih =>
    have hstep := step_fixed (q.run ops) op
    rw [run_concat]
    exact ⟨hstep.1.trans ih.1, hstep.2.trans ih.2⟩

end Xsimpleq

namespace Op

theorem elements_concat (ops : List (Op w)) (op : Op w) :
    elements (ops ++ [op]) = op.onList (elements ops) :=
  List.foldl_concat ..

theorem AllAllowed.of_prefix {head : Addr w} {pre ops : List (Op w)} (h : AllAllowed head ops)
    (hpre : pre <+: ops) : AllAllowed head pre :=
  fun front op hfront => h front op (hfront.trans hpre)

theorem AllAllowed.concat {head : Addr w} {ops : List (Op w)} {op : Op w} (h : AllAllowed head ops)
    (hop : op.Allowed head (elements ops)) : AllAllowed head (ops ++ [op]) := by
  intro pre op' hpre
  rcases List.prefix_concat_iff.mp hpre with heq | hpre
  · obtain ⟨rfl, rfl⟩ := List.append_inj' heq rfl |>.imp_right List.singleton_inj.mp
    exact hop
  · exact h pre op' hpre

end Op

open Xsimpleq Op

/-- By induction on the operations from the last one. -/
theorem run_chains (mem : Addr w → Addr w) {head : Addr w} {cookie : BitVec w} {ops : List (Op w)}
    (hops : AllAllowed head ops) (hok : cookie = 0 ∨ ∀ op ∈ ops, ¬op.Removes) :
    ((init mem head cookie).run ops).Chains (elements ops) := by
  induction ops using List.reverseRecOn with
  | nil => exact init_chains mem head cookie
  | append_singleton ops op ih =>
    have hfixed := run_fixed (init mem head cookie) ops
    have hchains := ih (hops.of_prefix (List.prefix_append ..))
      (hok.imp_right fun hno o ho => hno o (List.mem_append_left _ ho))
    rw [run_concat, elements_concat]
    apply hchains.step
    · rw [hfixed.1]
      exact hops ops op (List.prefix_refl _)
    · rw [hfixed.2]
      exact hok.imp_right fun hno => hno op (List.mem_append_right _ (List.mem_singleton_self _))

/-- The queue is the list of its elements all along just when it has no cookie or nothing is removed
from it. -/
theorem xsimpleq_holds_iff (mem : Addr w → Addr w) (head : Addr w) (cookie : BitVec w)
    (ops : List (Op w)) (hops : AllAllowed head ops) :
    (∀ pre, pre <+: ops → ((init mem head cookie).run pre).Holds (elements pre)) ↔
      cookie = 0 ∨ ∀ op ∈ ops, ¬op.Removes := by
  constructor
  · intro hholds
    by_cases hremoves : ∃ op ∈ ops, op.Removes
    · obtain ⟨op, hop, hremoves⟩ := hremoves
      obtain ⟨pre, post, rfl⟩ := List.append_of_mem hop
      have hfront : pre <+: pre ++ op :: post := List.prefix_append ..
      have hstep : pre ++ [op] <+: pre ++ op :: post := ⟨post, by simp⟩
      have hfixed := run_fixed (init mem head cookie) pre
      have hafter := hholds (pre ++ [op]) hstep
      rw [run_concat, elements_concat] at hafter
      -- The elements are those of the run without a cookie, where they are distinct.
      have hplain := run_chains mem (hops.of_prefix hfront) (.inl (rfl : (0 : BitVec w) = 0))
      have hallowed : op.Allowed ((init mem head cookie).run pre).head (elements pre) := by
        rw [hfixed.1]
        exact hops pre op hstep
      have hcookie := (hholds pre hfront).cookie_of_removes hallowed
        (List.nodup_cons.mp hplain.nodup).2 hremoves hafter
      rw [hfixed.2] at hcookie
      exact .inl hcookie
    · exact .inr fun op hop hremoves' => hremoves ⟨op, hop, hremoves'⟩
  · intro hok pre hpre
    have hchains := run_chains mem (hops.of_prefix hpre)
      (hok.imp_right fun hno op hop => hno op (hpre.subset hop))
    exact hchains.holds

/-- Two elements, of which the first one is removed again. -/
def removed : List (Op 64) := [.insertTail 16, .insertTail 32, .removeHead]

theorem removed_allowed : AllAllowed 8 removed := by
  have hnil : AllAllowed (8 : Addr 64) [] := by
    intro pre op hpre
    simp at hpre
  have hone : AllAllowed (8 : Addr 64) [.insertTail 16] :=
    hnil.concat ⟨by decide, by decide, by decide⟩
  have htwo : AllAllowed (8 : Addr 64) [.insertTail 16, .insertTail 32] :=
    hone.concat ⟨by decide, by decide, by decide⟩
  have hremoves : (Op.removeHead : Op 64).Allowed 8 (elements [.insertTail 16, .insertTail 32]) :=
    List.cons_ne_nil _ _
  exact htwo.concat hremoves

theorem xsimpleq_holds_iff_removed :
    (∀ pre, pre <+: removed → ((init (fun _ => 0) 8 0).run pre).Holds (elements pre)) ↔
      (0 : BitVec 64) = 0 ∨ ∀ op ∈ removed, ¬op.Removes :=
  xsimpleq_holds_iff (fun _ => 0) 8 0 removed removed_allowed

/-- With the cookie 1, a traversal after the removal does not give the second element. -/
theorem removeHead_breaks : AllAllowed 8 removed ∧ elements removed = [32] ∧
    ¬((init (fun _ => 0) 8 1).run removed).Holds (elements removed) := by
  refine ⟨removed_allowed, rfl, ?_⟩
  intro hholds
  have hvisits := hholds.forEach 1 (by decide)
  have hother : ((init (fun _ => 0) 8 1).run removed).forEach 1 ≠ some (elements removed) := by
    decide
  exact hother hvisits

end MuslBsd.Queue
