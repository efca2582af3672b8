import Mathlib.Data.List.Nodup
import Mathlib.Data.List.Sort
import Mathlib.Data.Tree.Basic
import Mathlib.Order.Lattice
import MuslBsd.Support.Sorting

/-! Binary search trees seen from a position: the subtree there, and the steps that lead to it. -/
namespace MuslBsd.Support
open BinaryTree

variable {β : Type*}

/-- The values from left to right. -/
@[simp] def inorder : BinaryTree β → List β
  | .nil => []
  | .node v l r => inorder l ++ v :: inorder r

inductive Side where
  | left
  | right
  deriving DecidableEq

@[simp] def Side.flip : Side → Side
  | .left => .right
  | .right => .left

@[simp] theorem Side.flip_flip {d : Side} : d.flip.flip = d := by
  cases d <;> rfl

theorem Side.ne_flip {d : Side} : d ≠ d.flip := by
  cases d <;> decide

/-- The node that holds `v`, with `t` on the side `d` and `u` on the other. -/
def branch (d : Side) (v : β) (t u : BinaryTree β) : BinaryTree β :=
  match d with
  | .left => .node v t u
  | .right => .node v u t

/-- A step down from a node to its subtree on a side: the value of the node, and what hangs on the
other side. -/
structure Crumb (β : Type*) where
  side : Side
  value : β
  sibling : BinaryTree β

def Crumb.fill (c : Crumb β) (t : BinaryTree β) : BinaryTree β := branch c.side c.value t c.sibling

/-- The whole tree around a subtree, the last step first. -/
def plug : BinaryTree β → List (Crumb β) → BinaryTree β
  | t, [] => t
  | t, c :: k => plug (c.fill t) k

def Crumb.before (c : Crumb β) : List β :=
  match c.side with
  | .left => []
  | .right => inorder c.sibling ++ [c.value]

def Crumb.after (c : Crumb β) : List β :=
  match c.side with
  | .left => c.value :: inorder c.sibling
  | .right => []

/-- The values on the left of a position. -/
def before : List (Crumb β) → List β
  | [] => []
  | c :: k => before k ++ c.before

/-- The values on the right of a position. -/
def after : List (Crumb β) → List β
  | [] => []
  | c :: k => c.after ++ after k

variable {d : Side} {f : β → ℤ} {t u x y z : BinaryTree β} {k k' : List (Crumb β)} {v a b : β}
  {l m : List β}

theorem branch_flip : branch d.flip v t u = branch d v u t := by
  cases d <;> rfl

theorem exists_branch (d : Side) (v : β) (l r : BinaryTree β) :
    ∃ t u, BinaryTree.node v l r = branch d v t u := by
  cases d with
  | left => exact ⟨l, r, rfl⟩
  | right => exact ⟨r, l, rfl⟩

theorem mem_inorder_branch : a ∈ inorder (branch d v t u) ↔ a = v ∨ a ∈ inorder t ∨ a ∈ inorder u := by
  cases d with
  | left => simp [branch, or_left_comm]
  | right =>
    simp only [branch, inorder, List.mem_append, List.mem_cons]
    tauto

theorem nodup_inorder_branch : (inorder (branch d v t u)).Nodup ↔ v ∉ inorder t ∧ v ∉ inorder u ∧
    (inorder t).Nodup ∧ (inorder u).Nodup ∧ (inorder t).Disjoint (inorder u) := by
  cases d with
  | left =>
    simp only [branch, inorder, List.nodup_append', List.nodup_cons, List.disjoint_cons_right]
    tauto
  | right =>
    have hcomm : (inorder t).Disjoint (inorder u) ↔ (inorder u).Disjoint (inorder t) :=
      List.disjoint_comm
    rw [hcomm]
    simp only [branch, inorder, List.nodup_append', List.nodup_cons, List.disjoint_cons_right]
    tauto

theorem plug_append : plug t (k ++ k') = plug (plug t k) k' := by
  induction k generalizing t with
  | nil => rfl
  | cons c k ih => exact ih

theorem inorder_fill (c : Crumb β) : inorder (c.fill t) = c.before ++ inorder t ++ c.after := by
  obtain ⟨d, v, u⟩ := c
  cases d <;> simp [Crumb.fill, branch, Crumb.before, Crumb.after]

theorem inorder_plug : inorder (plug t k) = before k ++ inorder t ++ after k := by
  induction k generalizing t with
  | nil => simp [plug, before, after]
  | cons c k ih =>
    rw [plug, ih, inorder_fill]
    simp only [before, after, List.append_assoc]

/-- Every value has a position. -/
theorem exists_plug_of_mem (h : v ∈ inorder t) : ∃ l r k, t = plug (.node v l r) k := by
  induction t with
  | nil => cases h
  | node w l r hl hr =>
    obtain h | h := List.mem_append.mp h
    · obtain ⟨l', r', k, hk⟩ := hl h
      refine ⟨l', r', k ++ [⟨.left, w, r⟩], ?_⟩
      rw [plug_append, ← hk]
      rfl
    · obtain rfl | h := List.mem_cons.mp h
      · exact ⟨l, r, [], rfl⟩
      · obtain ⟨l', r', k, hk⟩ := hr h
        refine ⟨l', r', k ++ [⟨.right, w, l⟩], ?_⟩
        rw [plug_append, ← hk]
        rfl

theorem before_eq_nil (h : ∀ c ∈ k, c.side = .left) : before k = [] := by
  induction k with
  | nil => rfl
  | cons c k ih =>
    have hside := h c (List.mem_cons_self ..)
    rw [before, ih fun c' hc' => h c' (List.mem_cons_of_mem _ hc'), Crumb.before, hside]
    rfl

theorem after_eq_nil (h : ∀ c ∈ k, c.side = .right) : after k = [] := by
  induction k with
  | nil => rfl
  | cons c k ih =>
    have hside := h c (List.mem_cons_self ..)
    rw [after, ih fun c' hc' => h c' (List.mem_cons_of_mem _ hc'), Crumb.after, hside]
    rfl

theorem inorder_plug_congr (h : inorder t = inorder u) : inorder (plug t k) = inorder (plug u k) := by
  rw [inorder_plug, inorder_plug, h]

/-- A rotation keeps the order of the values. -/
theorem inorder_rotate :
    inorder (branch d b (branch d a x y) z) = inorder (branch d a x (branch d b y z)) := by
  cases d <;> simp [branch]

theorem numNodes_eq_length : t.numNodes = (inorder t).length := by
  induction t with
  | nil => rfl
  | node v l r hl hr =>
    rw [numNodes, inorder, List.length_append, List.length_cons, hl, hr]
    omega

/-- The way to the end of a side leads to a node with nothing on that side. -/
theorem exists_endmost (d : Side) (v : β) (x y : BinaryTree β) : ∃ w z k,
    branch d v x y = plug (branch d w .nil z) k ∧ ∀ c ∈ k, c.side = d := by
  induction x generalizing v y with
  | nil => exact ⟨v, y, [], rfl, by simp⟩
  | node w l r hl hr =>
    have hup : ∀ x₁ x₂, BinaryTree.node w l r = branch d w x₁ x₂ → (∃ w' z k,
        branch d w x₁ x₂ = plug (branch d w' .nil z) k ∧ ∀ c ∈ k, c.side = d) →
        ∃ w' z k, branch d v (.node w l r) y = plug (branch d w' .nil z) k ∧ ∀ c ∈ k, c.side = d := by
      rintro x₁ x₂ heq ⟨w', z, k, hk, hside⟩
      refine ⟨w', z, k ++ [⟨d, v, y⟩], ?_, ?_⟩
      · rw [plug_append, ← hk, ← heq]
        rfl
      · intro c hc
        obtain hc | hc := List.mem_append.mp hc
        · exact hside c hc
        · rw [List.mem_singleton.mp hc]
    cases d with
    | left => exact hup l r rfl (hl w r)
    | right => exact hup r l rfl (hr w l)

theorem height_branch : (branch d v t u).height = max t.height u.height + 1 := by
  cases d with
  | left => rfl
  | right => rw [branch, height, max_comm]

theorem height_plug : k.length + t.height ≤ (plug t k).height := by
  induction k generalizing t with
  | nil => simp [plug]
  | cons c k ih =>
    have hfill : t.height + 1 ≤ (c.fill t).height := by
      rw [Crumb.fill, height_branch]
      omega
    have hplug := ih (t := c.fill t)
    rw [plug, List.length_cons]
    omega

/-! ### The way to a key -/

/-- The values that a key compares greater than come first, then at most one equal to it, then the
others: `f` compares the key with a value. -/
def Cuts (f : β → ℤ) (l : List β) : Prop := l.Pairwise fun a b => f a ≤ 0 → f b < 0

theorem Cuts.pos_of_before (h : Cuts f (l ++ a :: m)) (ha : 0 ≤ f a) : ∀ b ∈ l, 0 < f b := by
  intro b hb
  by_contra hneg
  have hlt := (List.pairwise_append.mp h).2.2 b hb a (List.mem_cons_self ..) (by omega)
  omega

theorem Cuts.neg_of_after (h : Cuts f (l ++ a :: m)) (ha : f a ≤ 0) : ∀ b ∈ m, f b < 0 := by
  intro b hb
  have hm := (List.pairwise_cons.mp (List.pairwise_append.mp h).2.1).1
  exact hm b hb ha

/-- At most one value is equal to the key. -/
theorem Cuts.find?_eq (h : Cuts f l) (ha : a ∈ l) (hzero : f a = 0) : l.find? (f · = 0) = some a := by
  obtain ⟨l₁, l₂, rfl⟩ := List.append_of_mem ha
  have hskip : l₁.find? (f · = 0) = none := by
    refine List.find?_eq_none.mpr fun b hb => ?_
    have hpos := h.pos_of_before hzero.ge b hb
    simp
    omega
  rw [List.find?_append, hskip, Option.none_or, List.find?_cons_of_pos (by simpa using hzero)]

/-- The step goes to the side on which the key belongs. -/
def Crumb.Toward (f : β → ℤ) (c : Crumb β) : Prop :=
  match c.side with
  | .left => f c.value < 0
  | .right => 0 < f c.value

def Guided (f : β → ℤ) (k : List (Crumb β)) : Prop := ∀ c ∈ k, c.Toward f

theorem Guided.cons {c : Crumb β} (hc : c.Toward f) (h : Guided f k) : Guided f (c :: k) := by
  intro c' hc'
  obtain rfl | hc' := List.mem_cons.mp hc'
  · exact hc
  · exact h c' hc'

/-- Down from a position to the value that is equal to the key, or to the place for it. -/
def descend (f : β → ℤ) : BinaryTree β → List (Crumb β) → BinaryTree β × List (Crumb β)
  | .nil, k => (.nil, k)
  | .node v l r, k =>
    if f v < 0 then descend f l (⟨.left, v, r⟩ :: k)
    else if 0 < f v then descend f r (⟨.right, v, l⟩ :: k)
    else (.node v l r, k)

theorem plug_descend : plug (descend f t k).1 (descend f t k).2 = plug t k := by
  induction t generalizing k with
  | nil => rfl
  | node v l r hl hr =>
    unfold descend
    split
    · exact hl
    · split
      · exact hr
      · rfl

theorem guided_descend (h : Guided f k) : Guided f (descend f t k).2 := by
  induction t generalizing k with
  | nil => exact h
  | node v l r hl hr =>
    unfold descend
    split
    · rename_i hv
      exact hl (.cons hv h)
    · split
      · rename_i hv
        exact hr (.cons hv h)
      · exact h

/-- Where the way ends. -/
theorem root_descend :
    (descend f t k).1 = .nil ∨ ∃ v l r, (descend f t k).1 = .node v l r ∧ f v = 0 := by
  induction t generalizing k with
  | nil => exact .inl rfl
  | node v l r hl hr =>
    unfold descend
    split
    · exact hl
    · split
      · exact hr
      · exact .inr ⟨v, l, r, rfl, by omega⟩

theorem Cuts.before_pos (h : Cuts f (inorder (plug t k))) (hk : Guided f k) :
    ∀ a ∈ before k, 0 < f a := by
  induction k generalizing t with
  | nil => simp [before]
  | cons c k ih =>
    have hc : c.Toward f := hk c (List.mem_cons_self ..)
    have hout := ih h fun c' hc' => hk c' (List.mem_cons_of_mem _ hc')
    rw [plug, inorder_plug, inorder_fill] at h
    obtain ⟨d, v, u⟩ := c
    cases d with
    | left => simpa [before, Crumb.before] using hout
    | right =>
      have hv : 0 < f v := hc
      have hsplit : Cuts f ((before k ++ inorder u) ++ v :: (inorder t ++ after k)) := by
        simpa [Crumb.before, Crumb.after] using h
      have hleft := hsplit.pos_of_before hv.le
      intro a ha
      obtain ha | ha : a ∈ before k ++ inorder u ∨ a = v := by
        simpa [before, Crumb.before, or_assoc] using ha
      · exact hleft a ha
      · rw [ha]
        exact hv

theorem Cuts.after_neg (h : Cuts f (inorder (plug t k))) (hk : Guided f k) :
    ∀ a ∈ after k, f a < 0 := by
  induction k generalizing t with
  | nil => simp [after]
  | cons c k ih =>
    have hc : c.Toward f := hk c (List.mem_cons_self ..)
    have hout := ih h fun c' hc' => hk c' (List.mem_cons_of_mem _ hc')
    rw [plug, inorder_plug, inorder_fill] at h
    obtain ⟨d, v, u⟩ := c
    cases d with
    | left =>
      have hv : f v < 0 := hc
      have hsplit : Cuts f ((before k ++ inorder t) ++ v :: (inorder u ++ after k)) := by
        simpa [Crumb.before, Crumb.after] using h
      have hright := hsplit.neg_of_after hv.le
      intro a ha
      obtain ha | ha : a = v ∨ a ∈ inorder u ++ after k := by
        simpa [after, Crumb.after, or_assoc] using ha
      · rw [ha]
        exact hv
      · exact hright a ha
    | right => simpa [after, Crumb.after] using hout

/-! ### Increasing lists -/

section

variable {cmp : β → β → ℤ} {e : β}

def Increasing (cmp : β → β → ℤ) (l : List β) : Prop := l.Pairwise fun a b => cmp a b < 0

/-- The place of `e` is in front of the values that are not less. -/
def insertAt (cmp : β → β → ℤ) (e : β) (l : List β) : List β :=
  l.orderedInsert (fun a b => cmp a b ≤ 0) e

variable (hcmp : ∀ l, Consistent cmp l)
include hcmp

theorem compare_trans (hab : cmp a b ≤ 0) (hbe : cmp b e < 0) : cmp a e < 0 := by
  have h := hcmp [a, b, e]
  have hle := h.trans a (by simp) b (by simp) e (by simp) hab (by omega)
  have hback : ¬cmp e a ≤ 0 := by
    intro hea
    have heb := h.trans e (by simp) a (by simp) b (by simp) hea hab
    have hlt := h.lt_iff (x := b) (y := e) (by simp) (by simp)
    omega
  have hlt := h.lt_iff (x := a) (y := e) (by simp) (by simp)
  omega

theorem compare_swap : cmp a b < 0 ↔ 0 < cmp b a := (hcmp [a, b]).lt_iff (by simp) (by simp)

theorem Increasing.cuts (h : Increasing cmp l) (e : β) : Cuts (cmp e) l :=
  h.imp fun hab hea => compare_trans hcmp hea hab

theorem Increasing.nodup (h : Increasing cmp l) : l.Nodup := by
  refine h.imp fun {a b} hab heq => ?_
  have hself := (hcmp [a]).self (x := a) (by simp)
  rw [← heq] at hab
  omega

/-- A new value between the values that are less and the others. -/
theorem Increasing.insert (h : Increasing cmp (l ++ m)) (hl : ∀ a ∈ l, 0 < cmp e a)
    (hm : ∀ a ∈ m, cmp e a < 0) : Increasing cmp (l ++ e :: m) := by
  obtain ⟨hincl, hincm, hlm⟩ := List.pairwise_append.mp h
  refine List.pairwise_append.mpr ⟨hincl, List.pairwise_cons.mpr ⟨hm, hincm⟩, fun a ha b hb => ?_⟩
  obtain rfl | hb := List.mem_cons.mp hb
  · exact (compare_swap hcmp).mpr (hl a ha)
  · exact hlm a ha b hb

/-- The least element that is greater, and the greatest that is less. -/
theorem neighbours_eq (h : Increasing cmp (l ++ a :: m)) :
    (l ++ a :: m).find? (cmp a · < 0) = m.head? ∧
      (l ++ a :: m).reverse.find? (0 < cmp a ·) = l.getLast? := by
  have hself := (hcmp [a]).self (x := a) (by simp)
  have hless := (h.cuts hcmp a).pos_of_before hself.ge
  have hgreater := (h.cuts hcmp a).neg_of_after hself.le
  constructor
  · have hskip : l.find? (cmp a · < 0) = none := by
      refine List.find?_eq_none.mpr fun b hb => ?_
      have hb' := hless b hb
      simp
      omega
    rw [List.find?_append, hskip, Option.none_or, List.find?_cons_of_neg (by simp [hself])]
    cases m with
    | nil => rfl
    | cons b m => exact List.find?_cons_of_pos (by simpa using hgreater b (List.mem_cons_self ..))
  · have hskip : (m.reverse ++ [a]).find? (0 < cmp a ·) = none := by
      refine List.find?_eq_none.mpr fun b hb => ?_
      obtain hb | rfl : b ∈ m ∨ b = a := by simpa using hb
      · have hb' := hgreater b hb
        simp
        omega
      · simp [hself]
    rw [List.reverse_append, List.reverse_cons, List.find?_append, hskip, Option.none_or,
      ← List.head?_reverse]
    cases hl : l.reverse with
    | nil => rfl
    | cons b bs =>
      have hb : b ∈ l := List.mem_reverse.mp (hl ▸ List.mem_cons_self ..)
      exact List.find?_cons_of_pos (by simpa using hless b hb)

omit hcmp in
theorem erase_middle [DecidableEq β] (h : (l ++ a :: m).Nodup) : (l ++ a :: m).erase a = l ++ m := by
  have ha : a ∉ l := fun hmem => (List.nodup_append'.mp h).2.2 hmem (List.mem_cons_self ..)
  rw [List.erase_append_right _ ha, List.erase_cons_head]

omit hcmp in
theorem insertAt_eq (hl : ∀ a ∈ l, 0 < cmp e a) (hm : ∀ a ∈ m, cmp e a < 0) :
    insertAt cmp e (l ++ m) = l ++ e :: m := by
  induction l with
  | nil =>
    cases m with
    | nil => rfl
    | cons b m => exact List.orderedInsert_cons_of_le _ m (hm b (List.mem_cons_self ..)).le
  | cons a l ih =>
    have ha : ¬cmp e a ≤ 0 := by
      have hpos := hl a (List.mem_cons_self ..)
      omega
    have hrest := ih fun b hb => hl b (List.mem_cons_of_mem _ hb)
    exact (List.orderedInsert_of_not_le (r := fun a b => cmp a b ≤ 0) _ ha).trans (congrArg (a :: ·) hrest)

end

/-- The comparison of numbers by their difference. -/
theorem consistent_sub (l : List ℕ) : Consistent (fun a b : ℕ => (a - b : ℤ)) l where
  antisymm a _ b _ := by
    rw [← Int.sign_neg, Int.neg_sub]
  trans a _ b _ c _ hab hbc := by
    omega

end MuslBsd.Support
