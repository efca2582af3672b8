import Mathlib.Algebra.Order.Ring.Nat
import Mathlib.Data.Nat.Log
import MuslBsd.Support.SearchTree

/-! Red-black trees: no red node below another, and as many black nodes on every way down. -/
namespace MuslBsd.Support
open BinaryTree

inductive Color where
  | black
  | red
  deriving DecidableEq

variable {α : Type*}

/-- The tree is balanced; its root has the colour `c`, and there are `n` black nodes on each way
down. -/
inductive RedBlack : BinaryTree (Color × α) → Color → ℕ → Prop
  | nil : RedBlack .nil .black 0
  | red {a : α} {l r : BinaryTree (Color × α)} {n : ℕ} (hl : RedBlack l .black n)
      (hr : RedBlack r .black n) : RedBlack (.node (.red, a) l r) .red n
  | black {a : α} {l r : BinaryTree (Color × α)} {cl cr : Color} {n : ℕ} (hl : RedBlack l cl n)
      (hr : RedBlack r cr n) : RedBlack (.node (.black, a) l r) .black (n + 1)

/-- What a position asks of the tree there: `n` black nodes on each way down, and a black root when
`p`, the colour of the node above, is red. The root of the whole tree stands below a red one, so to
speak. -/
inductive Hole : List (Crumb (Color × α)) → Color → ℕ → Prop
  | root {n : ℕ} : Hole [] .red n
  | red {d : Side} {a : α} {u : BinaryTree (Color × α)} {k : List (Crumb (Color × α))} {n : ℕ}
      (hu : RedBlack u .black n) (hk : Hole k .black n) : Hole (⟨d, (.red, a), u⟩ :: k) .red n
  | black {d : Side} {a : α} {u : BinaryTree (Color × α)} {k : List (Crumb (Color × α))}
      {c p : Color} {n : ℕ} (hu : RedBlack u c n) (hk : Hole k p (n + 1)) :
      Hole (⟨d, (.black, a), u⟩ :: k) .black n

variable {t u : BinaryTree (Color × α)} {k : List (Crumb (Color × α))} {c c' p : Color} {a : α} {d : Side}
  {n m : ℕ}

namespace RedBlack

theorem branch_red (ht : RedBlack t .black n) (hu : RedBlack u .black n) :
    RedBlack (branch d (.red, a) t u) .red n := by
  cases d with
  | left => exact .red ht hu
  | right => exact .red hu ht

theorem branch_black (ht : RedBlack t c n) (hu : RedBlack u c' n) :
    RedBlack (branch d (.black, a) t u) .black (n + 1) := by
  cases d with
  | left => exact .black ht hu
  | right => exact .black hu ht

theorem of_branch_red (h : RedBlack (branch d (.red, a) t u) c n) :
    c = .red ∧ RedBlack t .black n ∧ RedBlack u .black n := by
  cases d with
  | left =>
    cases h with
    | red hl hr => exact ⟨rfl, hl, hr⟩
  | right =>
    cases h with
    | red hl hr => exact ⟨rfl, hr, hl⟩

theorem of_branch_black (h : RedBlack (branch d (.black, a) t u) c n) :
    c = .black ∧ ∃ m ct cu, n = m + 1 ∧ RedBlack t ct m ∧ RedBlack u cu m := by
  cases d with
  | left =>
    cases h with
    | black hl hr => exact ⟨rfl, _, _, _, rfl, hl, hr⟩
  | right =>
    cases h with
    | black hl hr => exact ⟨rfl, _, _, _, rfl, hr, hl⟩

/-- A tree that needs a black node on the way down has a root. -/
theorem exists_branch (h : RedBlack t c (n + 1)) (d : Side) : ∃ a x y, t = branch d (c, a) x y := by
  cases h with
  | @red a l r n hl hr =>
    obtain ⟨x, y, hxy⟩ := Support.exists_branch d (Color.red, a) l r
    exact ⟨a, x, y, hxy⟩
  | @black a l r cl cr n hl hr =>
    obtain ⟨x, y, hxy⟩ := Support.exists_branch d (Color.black, a) l r
    exact ⟨a, x, y, hxy⟩

theorem exists_branch_red (h : RedBlack t .red n) (d : Side) :
    ∃ a x y, t = branch d (.red, a) x y ∧ RedBlack x .black n ∧ RedBlack y .black n := by
  cases h with
  | @red a l r n hl hr =>
    cases d with
    | left => exact ⟨a, l, r, rfl, hl, hr⟩
    | right => exact ⟨a, r, l, rfl, hr, hl⟩

/-- Which tree stands in a position, and what the position asks of it. -/
theorem hole (h : RedBlack (plug t k) .black m) :
    ∃ p c n, Hole k p n ∧ RedBlack t c n ∧ (p = .red → c = .black) := by
  induction k generalizing t with
  | nil => exact ⟨.red, .black, m, .root, h, fun _ => rfl⟩
  | cons cr k ih =>
    obtain ⟨p, c, n, hk, ht, hpc⟩ := ih h
    obtain ⟨d, ⟨c', a⟩, u⟩ := cr
    cases c' with
    | red =>
      obtain ⟨rfl, ht, hu⟩ := of_branch_red ht
      have hp : p = .black := by
        cases p with
        | black => rfl
        | red => exact absurd (hpc rfl) (by decide)
      rw [hp] at hk
      exact ⟨.red, .black, n, .red hu hk, ht, fun _ => rfl⟩
    | black =>
      obtain ⟨rfl, m, ct, cu, rfl, ht, hu⟩ := of_branch_black ht
      exact ⟨.black, ct, m, .black hu hk, ht, fun h => absurd h (by decide)⟩

theorem two_pow_le (h : RedBlack t c n) : 2 ^ n ≤ t.numNodes + 1 := by
  induction h with
  | nil => simp
  | red _ _ hl hr =>
    simp only [numNodes]
    omega
  | black _ _ hl hr =>
    simp only [numNodes, pow_succ]
    omega

theorem height_le (h : RedBlack t c n) : t.height ≤ 2 * n + (if c = .red then 1 else 0) := by
  induction h with
  | nil => simp
  | red _ _ hl hr =>
    simp only [reduceCtorEq, if_false] at hl hr
    simp only [height, if_true]
    omega
  | @black a l r cl cr n _ _ hl hr =>
    have hl' : l.height ≤ 2 * n + 1 := hl.trans (by split <;> omega)
    have hr' : r.height ≤ 2 * n + 1 := hr.trans (by split <;> omega)
    simp only [height, reduceCtorEq, if_false]
    omega

/-- No way down is longer than twice the logarithm of the size. -/
theorem height_le_log (h : RedBlack t .black n) : t.height ≤ 2 * Nat.log 2 (t.numNodes + 1) := by
  have hheight := h.height_le
  have hlog := Nat.le_log_of_pow_le (by decide) h.two_pow_le
  simp only [reduceCtorEq, if_false] at hheight
  omega

end RedBlack

theorem Hole.plug (h : Hole k p n) (ht : RedBlack t c n) (hpc : p = .red → c = .black) :
    ∃ m, RedBlack (plug t k) .black m := by
  induction h generalizing t c with
  | root =>
    rw [hpc rfl] at ht
    exact ⟨_, ht⟩
  | red hu _ ih =>
    rw [hpc rfl] at ht
    exact ih (ht.branch_red hu) fun h => absurd h (by decide)
  | black hu _ ih => exact ih (ht.branch_black hu) fun _ => rfl

theorem Hole.exists_sibling (h : Hole (⟨d, (c, a), u⟩ :: k) p n) : ∃ c', RedBlack u c' n := by
  cases h with
  | red hu _ => exact ⟨_, hu⟩
  | black hu _ => exact ⟨_, hu⟩

/-- The values along the way do not matter. -/
theorem Hole.relabel {k' : List (Crumb (Color × α))} {b : α}
    (h : Hole (k' ++ ⟨d, (c, a), u⟩ :: k) p n) : Hole (k' ++ ⟨d, (c, b), u⟩ :: k) p n := by
  induction k' generalizing p n with
  | nil =>
    cases h with
    | red hu hk => exact .red hu hk
    | black hu hk => exact .black hu hk
  | cons cr k' ih =>
    obtain ⟨d', ⟨c', a'⟩, u'⟩ := cr
    cases h with
    | red hu hk => exact .red hu (ih hk)
    | black hu hk => exact .black hu (ih hk)

/-- The tree with a black root. -/
def blacken : BinaryTree (Color × α) → BinaryTree (Color × α)
  | .nil => .nil
  | .node (_, a) l r => .node (.black, a) l r

theorem blacken_branch : blacken (branch d (c, a) t u) = branch d (.black, a) t u := by
  cases d <;> rfl

theorem RedBlack.blacken (h : RedBlack t c n) : ∃ m, RedBlack (blacken t) .black m := by
  cases h with
  | nil => exact ⟨0, .nil⟩
  | red hl hr => exact ⟨_, .black hl hr⟩
  | black hl hr => exact ⟨_, .black hl hr⟩

theorem RedBlack.blacken_eq (h : RedBlack t .black n) : Support.blacken t = t := by
  cases h with
  | nil => rfl
  | black hl hr => rfl

end MuslBsd.Support
