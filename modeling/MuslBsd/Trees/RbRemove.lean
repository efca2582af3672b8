import MuslBsd.Trees.RbSearch

/-! `RB_REMOVE` keeps the trees of `tree.h` balanced and in order. -/
namespace MuslBsd.Trees
open MuslBsd.Support BinaryTree Rb

variable {α : Type*} [DecidableEq α] {s s' : Rb α} {t u v x y z sib : RbTree α} {k : List (RbCrumb α)}
  {a b e q P : α} {c c' p cP cy : Color} {d : Side} {n m : ℕ}

/-- A tree that lacks a black node on each way down, unless its root is red. -/
inductive Short : RbTree α → ℕ → Prop
  | black {t : RbTree α} {n : ℕ} (ht : RedBlack t .black n) : Short t n
  | red {d : Side} {a : α} {l r : RbTree α} {cl cr : Color} {n : ℕ} (hl : RedBlack l cl n)
      (hr : RedBlack r cr n) : Short (branch d (.red, a) l r) n

omit [DecidableEq α] in
theorem Short.of_red (h : Short (branch d (.red, a) x y) n) :
    RedBlack (branch d (.black, a) x y) .black (n + 1) := by
  rw [← blacken_branch (c := .red)]
  generalize hw : branch d (Color.red, a) x y = w at h
  cases h with
  | black ht =>
    rw [← hw] at ht
    cases ht.of_branch_red.1
  | red hl hr =>
    rw [blacken_branch]
    exact hl.branch_black hr

namespace Rb

/-- A red sibling is turned into the parent of the parent. -/
theorem removeRed_holds (h : s.Holds (plug (branch d (cP, P) t (branch d (c, q) x y)) k))
    (hk : Hole (⟨d, (cP, P), branch d (c, q) x y⟩ :: k) cP (n + 1)) :
    ∃ s' q' y' z' cP' k', s.removeRed d P q = some (s', q') ∧
      s'.Holds (plug (branch d (cP', P) t (branch d (.black, q') y' z')) k') ∧
      Hole (⟨d, (cP', P), branch d (.black, q') y' z'⟩ :: k') cP' (n + 1) ∧
      (k' = k ∨ cP' = .red) ∧
      elements (plug (branch d (cP', P) t (branch d (.black, q') y' z')) k') =
        elements (plug (branch d (cP, P) t (branch d (c, q) x y)) k) := by
  have hsib : s.Holds (plug (branch d (c, q) x y) (⟨d.flip, (cP, P), t⟩ :: k)) := by
    rw [plug, Crumb.fill, branch_flip]
    exact h
  have hcolor : s.color q = c := color_of_entry hsib.entry
  cases c with
  | black =>
    refine ⟨s, q, x, y, cP, k, ?_, h, hk, .inl rfl, rfl⟩
    rw [removeRed, hcolor]
    rfl
  | red =>
    cases hk with
    | red hu hk => cases (hu.of_branch_red).1
    | black hu hk =>
      obtain ⟨-, hx, hy⟩ := hu.of_branch_red
      obtain ⟨q', y', z', rfl⟩ := hx.exists_branch d
      have h₁ : (s.setColor q .black).Holds (plug (branch d (.black, q) (branch d (.black, q') y' z') y)
          (⟨d.flip, (.black, P), t⟩ :: k)) := hsib.setColor
      rw [plug, Crumb.fill, branch_flip] at h₁
      have h₂ : (s.setBlackRed q P).Holds (plug (branch d (.red, P) t
          (branch d (.black, q) (branch d (.black, q') y' z') y)) k) := h₁.setColor
      obtain ⟨s₁, hs₁, h₃⟩ := h₂.rotate
      have h₄ : s₁.Holds (plug (branch d (.red, P) t (branch d (.black, q') y' z'))
          (⟨d, (.black, q), y⟩ :: k)) := h₃
      have hchild : s₁.child d.flip P = some q' := (child_flip_of_entry h₄.entry).trans addr_branch
      refine ⟨s₁, q', y', z', .red, _, ?_, h₄, .red hx (.black hy hk), .inr rfl, ?_⟩
      · rw [removeRed, hcolor, if_pos rfl, hs₁]
        show (s₁.child d.flip P).bind _ = _
        rw [hchild]
        rfl
      · exact elements_plug_congr elements_rotate

/-- A black child on the far side is turned into a red one. -/
theorem removeFar_holds (h : s.Holds (plug (branch d (cP, P) t (branch d (.black, q) x y)) k))
    (hx : RedBlack x c n) (hy : RedBlack y cy n) (hred : c = .red ∨ cy = .red) :
    ∃ s' q' x' a z₁ z₂ c', s.removeFar d P q = some (s', q') ∧
      s'.Holds (plug (branch d (cP, P) t (branch d (.black, q') x' (branch d (.red, a) z₁ z₂))) k) ∧
      RedBlack x' c' n ∧ RedBlack (branch d (.black, a) z₁ z₂) .black (n + 1) ∧
      elements (branch d (.black, q') x' (branch d (.red, a) z₁ z₂)) =
        elements (branch d (.black, q) x y) := by
  have hsib : s.Holds (plug (branch d (.black, q) x y) (⟨d.flip, (cP, P), t⟩ :: k)) := by
    rw [plug, Crumb.fill, branch_flip]
    exact h
  have hq := hsib.entry
  have hblack : s.isBlack (s.child d.flip q) = decide (cy = .black) := by
    rw [child_flip_of_entry hq]
    exact (stored_branch.mp (holds_plug.mp hsib).1).2.2.isBlack hy
  cases cy with
  | red =>
    obtain ⟨a, z₁, z₂, rfl, hz₁, hz₂⟩ := hy.exists_branch_red d
    refine ⟨s, q, x, a, z₁, z₂, c, ?_, h, hx, hz₁.branch_black hz₂, rfl⟩
    rw [removeFar, hblack]
    rfl
  | black =>
    obtain rfl : c = .red := by simpa using hred
    obtain ⟨w, x₁, x₂, rfl, hx₁, hx₂⟩ := hx.exists_branch_red d
    have hchild : s.child d q = some w := (child_of_entry hq).trans addr_branch
    have h₁ : s.Holds (plug (branch d (.red, w) x₁ x₂) (⟨d, (.black, q), y⟩ :: ⟨d.flip, (cP, P), t⟩ :: k)) :=
      hsib
    have h₂ : (s.setColor w .black).Holds (plug (branch d (.black, q) (branch d (.black, w) x₁ x₂) y)
        (⟨d.flip, (cP, P), t⟩ :: k)) := h₁.setColor
    have h₃ : ((s.setColor w .black).setColor q .red).Holds (plug
        (branch d (.red, q) (branch d (.black, w) x₁ x₂) y) (⟨d.flip, (cP, P), t⟩ :: k)) := h₂.setColor
    obtain ⟨s₁, hs₁, h₄⟩ := h₃.rotate_flip
    rw [plug, Crumb.fill, branch_flip] at h₄
    have hchild₁ : s₁.child d.flip P = some w := (child_flip_of_entry h₄.entry).trans addr_branch
    refine ⟨s₁, w, x₁, q, x₂, y, .black, ?_, h₄, hx₁, hx₂.branch_black hy, elements_rotate.symm⟩
    rw [removeFar, hblack, hchild]
    show (((s.setColor w .black).setColor q .red).rotate d.flip q).bind _ = _
    rw [hs₁]
    show (s₁.child d.flip P).bind _ = _
    rw [hchild₁]
    rfl

/-- The end of a round, with a red child of the sibling on the far side. -/
theorem removeLast_holds {z₁ z₂ : RbTree α}
    (h : s.Holds (plug (branch d (cP, P) t (branch d (.black, q) x (branch d (.red, a) z₁ z₂))) k)) :
    ∃ s', ((((s.setColor q (s.color P)).setColor P .black).setColorOf
        (((s.setColor q (s.color P)).setColor P .black).child d.flip q) .black).rotate d P) = some s' ∧
      s'.Holds (plug (branch d (cP, q) (branch d (.black, P) t x) (branch d (.black, a) z₁ z₂)) k) := by
  have hcolor : s.color P = cP := color_of_entry h.entry
  have hsib : s.Holds (plug (branch d (.black, q) x (branch d (.red, a) z₁ z₂))
      (⟨d.flip, (cP, P), t⟩ :: k)) := by
    rw [plug, Crumb.fill, branch_flip]
    exact h
  have h₁ : (s.setColor q cP).Holds (plug (branch d (cP, q) x (branch d (.red, a) z₁ z₂))
      (⟨d.flip, (cP, P), t⟩ :: k)) := hsib.setColor
  rw [plug, Crumb.fill, branch_flip] at h₁
  have h₂ : ((s.setColor q cP).setColor P .black).Holds (plug (branch d (.black, P) t
      (branch d (cP, q) x (branch d (.red, a) z₁ z₂))) k) := h₁.setColor
  have h₃ : ((s.setColor q cP).setColor P .black).Holds (plug (branch d (.red, a) z₁ z₂)
      (⟨d.flip, (cP, q), x⟩ :: ⟨d.flip, (.black, P), t⟩ :: k)) := by
    rw [plug, plug, Crumb.fill, Crumb.fill, branch_flip, branch_flip]
    exact h₂
  have hchild : ((s.setColor q cP).setColor P .black).child d.flip q = some a := by
    rw [plug, Crumb.fill] at h₃
    exact (child_of_entry h₃.entry).trans addr_branch
  have h₄ : (((s.setColor q cP).setColor P .black).setColor a .black).Holds (plug
      (branch d (.black, a) z₁ z₂) (⟨d.flip, (cP, q), x⟩ :: ⟨d.flip, (.black, P), t⟩ :: k)) := h₃.setColor
  rw [plug, plug, Crumb.fill, Crumb.fill, branch_flip, branch_flip] at h₄
  rw [hcolor, hchild]
  exact h₄.rotate

/-- A round of the loop of `RB_REMOVE_COLOR` ends the loop, or moves the lack of a black node up. -/
theorem removeTurn_holds (h : s.Holds (plug (branch d (cP, P) t sib) k)) (ht : RedBlack t .black n)
    (hk : Hole (⟨d, (cP, P), sib⟩ :: k) cP (n + 1)) :
    (∃ s' u m, s.removeTurn d P = some (s', none) ∧ s'.Holds u ∧ RedBlack u .black m ∧
      elements u = elements (plug (branch d (cP, P) t sib) k)) ∨
    ∃ s' cP' sib' k' p' m, s.removeTurn d P = some (s', some P) ∧
      s'.Holds (plug (branch d (cP', P) t sib') k') ∧ Short (branch d (cP', P) t sib') m ∧
      Hole k' p' (m + 1) ∧ (k' = k ∨ cP' = .red) ∧
      elements (plug (branch d (cP', P) t sib') k') = elements (plug (branch d (cP, P) t sib) k) := by
  obtain ⟨c, hsib⟩ := hk.exists_sibling
  obtain ⟨q, x, y, rfl⟩ := hsib.exists_branch d
  have hchild : s.child d.flip P = some q := (child_flip_of_entry h.entry).trans addr_branch
  obtain ⟨s₁, q₁, y₁, z₁, c₁, k₁, hs₁, h₁, hk₁, hup, hsame₁⟩ := removeRed_holds h hk
  obtain ⟨c', hsib₁⟩ := hk₁.exists_sibling
  obtain ⟨-, m, cy, cz, hm, hy, hz⟩ := hsib₁.of_branch_black
  obtain rfl := Nat.succ.inj hm
  have hq₁ : s₁.Holds (plug (branch d (.black, q₁) y₁ z₁) (⟨d.flip, (c₁, P), t⟩ :: k₁)) := by
    rw [plug, Crumb.fill, branch_flip]
    exact h₁
  have hboth : (s₁.isBlack (s₁.child .left q₁) && s₁.isBlack (s₁.child .right q₁)) =
      (decide (cy = .black) && decide (cz = .black)) := by
    have hstored := (stored_branch.mp (holds_plug.mp hq₁).1).2
    have hnear := hstored.1.isBlack hy
    have hfar := hstored.2.isBlack hz
    rw [← child_of_entry hq₁.entry] at hnear
    rw [← child_flip_of_entry hq₁.entry] at hfar
    rw [← hnear, ← hfar]
    cases d with
    | left => rfl
    | right => exact Bool.and_comm ..
  have hturn : s.removeTurn d P = if decide (cy = .black) && decide (cz = .black) then
      some (s₁.setColor q₁ .red, some P) else (s₁.removeFar d P q₁).bind fun r =>
        ((((r.1.setColor r.2 (r.1.color P)).setColor P .black).setColorOf
          (((r.1.setColor r.2 (r.1.color P)).setColor P .black).child d.flip r.2) .black).rotate d P).bind
            fun s => some (s, none) := by
    rw [removeTurn, hchild]
    show (s.removeRed d P q).bind _ = _
    rw [hs₁, ← hboth]
    rfl
  by_cases hblack : cy = .black ∧ cz = .black
  · -- the red of the sibling takes a black node from its side
    right
    obtain ⟨rfl, rfl⟩ := hblack
    have h₂ : (s₁.setColor q₁ .red).Holds (plug (branch d (.red, q₁) y₁ z₁) (⟨d.flip, (c₁, P), t⟩ :: k₁)) :=
      hq₁.setColor
    rw [plug, Crumb.fill, branch_flip] at h₂
    have hsame : elements (plug (branch d (c₁, P) t (branch d (.red, q₁) y₁ z₁)) k₁) =
        elements (plug (branch d (cP, P) t (branch d (c, q) x y)) k) :=
      (elements_plug_congr (elements_branch_congr rfl (elements_branch_congr rfl rfl))).trans hsame₁
    cases hk₁ with
    | red hu hk₁ =>
      exact ⟨_, _, _, _, _, _, hturn, h₂, .red ht (hy.branch_red hz), hk₁, hup, hsame⟩
    | black hu hk₁ =>
      exact ⟨_, _, _, _, _, _, hturn, h₂, .black (ht.branch_black (hy.branch_red hz)), hk₁, hup, hsame⟩
  · left
    have hred : cy = .red ∨ cz = .red := by
      cases cy <;> cases cz <;> simp at hblack ⊢
    obtain ⟨s₂, q₂, x₂, a, u₁, u₂, c₂, hs₂, h₂, hx₂, hu, hsame₂⟩ := removeFar_holds h₁ hy hz hred
    obtain ⟨s₃, hs₃, h₃⟩ := removeLast_holds h₂
    obtain ⟨c₃, p₃, m, hc₃, hk₃, hm⟩ : ∃ c₃ p₃ m, RedBlack (branch d (c₁, q₂) (branch d (.black, P) t x₂)
        (branch d (.black, a) u₁ u₂)) c₃ m ∧ Hole k₁ p₃ m ∧ (p₃ = .red → c₃ = .black) := by
      cases hk₁ with
      | red _ hk₁ => exact ⟨_, _, _, (ht.branch_black hx₂).branch_red hu, hk₁, fun h => absurd h (by decide)⟩
      | black _ hk₁ => exact ⟨_, _, _, (ht.branch_black hx₂).branch_black hu, hk₁, fun _ => rfl⟩
    obtain ⟨m, hm⟩ := hk₃.plug hc₃ hm
    refine ⟨s₃, _, m, ?_, h₃, hm, ?_⟩
    · rw [hturn, if_neg (by simpa using hblack), hs₂, Option.bind_some, hs₃]
      rfl
    · rw [← hsame₁]
      refine elements_plug_congr ?_
      calc elements (branch d (c₁, q₂) (branch d (.black, P) t x₂) (branch d (.black, a) u₁ u₂))
        _ = elements (branch d (c₁, P) t (branch d (.black, q₂) x₂ (branch d (.black, a) u₁ u₂))) :=
          elements_rotate
        _ = elements (branch d (c₁, P) t (branch d (.black, q₂) x₂ (branch d (.red, a) u₁ u₂))) :=
          elements_branch_congr rfl (elements_branch_congr rfl (elements_branch_congr rfl rfl))
        _ = elements (branch d (c₁, P) t (branch d (.black, q₁) y₁ z₁)) :=
          elements_branch_congr rfl hsame₂

/-- The end of `RB_REMOVE_COLOR`. -/
theorem removeDone (h : s.Holds (plug t k)) : (s.setColorOf (addr t) .black).Holds (plug (blacken t) k) := by
  cases t with
  | nil => exact h
  | node v l r =>
    obtain ⟨c, a⟩ := v
    have hcolor : (s.setColor a .black).Holds (plug (branch .left (.black, a) l r) k) :=
      Holds.setColor (d := .left) h
    exact hcolor

omit [DecidableEq α] in
theorem Around.exists_root {cr : RbCrumb α} {i : Option α} (h : s.Around i (cr :: k)) :
    ∃ r ∈ elementsAround (cr :: k), s.root = some r := by
  induction k generalizing cr i with
  | nil =>
    obtain ⟨d, ⟨c, a⟩, u⟩ := cr
    exact ⟨a, mem_around_cons.mpr (.inl rfl), h.2.2⟩
  | cons cr' k ih =>
    obtain ⟨d, ⟨c, a⟩, u⟩ := cr
    obtain ⟨r, hr, hroot⟩ := ih h.2.2
    exact ⟨r, mem_around_cons.mpr (.inr (.inr hr)), hroot⟩

omit [DecidableEq α] in
theorem Holds.ne_root {cr : RbCrumb α} (h : s.Holds (plug t (cr :: k))) : addr t ≠ s.root := by
  obtain ⟨r, hr, hroot⟩ := (holds_plug.mp h).2.1.exists_root
  rw [hroot]
  exact fun hr' => (nodup_plug.mp h.nodup).2.2 (addr_mem hr') hr

theorem removeColor_red {fuel : ℕ} (h : s.Holds (plug (branch d (.red, a) x y) k))
    (ht : Short (branch d (.red, a) x y) n) (hk : Hole k p (n + 1)) :
    ∃ s' u m, s.removeColor (fuel + 1) (above k) (some a) = some s' ∧ s'.Holds u ∧ RedBlack u .black m ∧
      elements u = elements (plug (branch d (.red, a) x y) k) := by
  obtain ⟨m, hm⟩ := hk.plug ht.of_red fun _ => rfl
  have hdone := removeDone h
  rw [addr_branch, blacken_branch] at hdone
  refine ⟨_, _, m, ?_, hdone, hm, elements_plug_congr (elements_branch_congr rfl rfl)⟩
  have hred : s.isBlack (some a) = false := by
    show decide (s.color a = .black) = false
    rw [color_of_entry h.entry]
    rfl
  rw [removeColor, hred]
  rfl

/-- `RB_REMOVE_COLOR` at a position that lacks a black node. -/
theorem removeColor_holds {fuel : ℕ} (h : s.Holds (plug t k)) (ht : Short t n) (hk : Hole k p (n + 1))
    (hfuel : k.length < fuel) : ∃ s' u m, s.removeColor fuel (above k) (addr t) = some s' ∧ s'.Holds u ∧
      RedBlack u .black m ∧ elements u = elements (plug t k) := by
  induction fuel generalizing s t k p n with
  | zero => omega
  | succ fuel ih =>
    cases ht with
    | @red d a l r cl cr n hl hr =>
      rw [addr_branch]
      exact removeColor_red h (.red hl hr) hk
    | black ht =>
      cases k with
      | nil =>
        obtain ⟨m, hm⟩ := ht.blacken
        refine ⟨_, _, m, ?_, removeDone h, hm, elements_blacken⟩
        have hroot : s.root = addr t := h.root
        rw [removeColor, hroot]
        simp
      | cons cr k =>
        obtain ⟨d, ⟨cP, P⟩, sib⟩ := cr
        have hcrumb : s.Holds (plug (branch d (cP, P) t sib) k) := h
        have hP := hcrumb.entry
        have hhole : Hole (⟨d, (cP, P), sib⟩ :: k) cP (n + 1) ∧ (p = cP) := by
          cases hk with
          | red hu hk => exact ⟨.red hu hk, rfl⟩
          | black hu hk => exact ⟨.black hu hk, rfl⟩
        have hne : addr sib ≠ addr t := by
          obtain ⟨c, hsib⟩ := hk.exists_sibling
          obtain ⟨q, x, y, rfl⟩ := hsib.exists_branch d
          rw [addr_branch]
          exact fun heq => hcrumb.addr_ne heq.symm addr_branch
        have hblack : s.isBlack (addr t) = true := (holds_plug.mp h).1.isBlack ht
        have hturn : s.removeColor (fuel + 1) (some P) (addr t) = (s.removeTurn d P).bind fun r =>
            r.2.elim (some (r.1.setColorOf r.1.root .black)) fun elm =>
              removeColor fuel r.1 (r.1.parent elm) (some elm) := by
          rw [removeColor, hblack, if_pos (by simpa using h.ne_root)]
          show (s.removeTurn (if s.child .left P = addr t then .left else .right) P).bind _ = _
          rw [side_of_entry hP hne]
          congr 1
          funext r
          obtain ⟨s', elm⟩ := r
          cases elm <;> rfl
        show ∃ s' u m, s.removeColor (fuel + 1) (some P) (addr t) = some s' ∧ _
        rw [hturn]
        obtain ⟨s₁, u, m, hs₁, h₁, hu, hsame₁⟩ | ⟨s₁, c₁, sib₁, k₁, p₁, m, hs₁, h₁, hshort, hk₁, hup, hsame₁⟩ :=
          removeTurn_holds hcrumb ht hhole.1
        · rw [hs₁]
          refine ⟨_, u, m, rfl, ?_, hu, hsame₁⟩
          have hdone : (s₁.setColorOf (addr u) .black).Holds (plug (blacken u) []) := removeDone h₁
          rw [hu.blacken_eq, ← h₁.root] at hdone
          exact hdone
        · have hsame : elements (plug (branch d (c₁, P) t sib₁) k₁) =
              elements (plug t (⟨d, (cP, P), sib⟩ :: k)) := hsame₁
          rw [hs₁, ← hsame]
          show ∃ s' u m, s₁.removeColor fuel (s₁.parent P) (some P) = some s' ∧ _
          have haddr : addr (branch d (c₁, P) t sib₁) = some P := addr_branch
          rw [h₁.parent haddr]
          obtain ⟨fuel, rfl⟩ := Nat.exists_eq_add_one_of_ne_zero (n := fuel) (by simp at hfuel; omega)
          obtain rfl | rfl := hup
          · rw [← haddr]
            exact ih h₁ hshort hk₁ (by simpa using hfuel)
          · exact removeColor_red h₁ hshort hk₁

/-! ### Taking an element out -/

theorem unlink_entry_of_notMem (hp : s.parent a = above k) (ht : e ∉ elements t)
    (hk : e ∉ elementsAround k) : (s.unlink a (addr t)).entry e = s.entry e := by
  rw [unlink, hp, replace_entry_of_ne (ne_of_notMem_around hk), adopt_entry_of_ne (ne_of_notMem_elements ht)]

/-- An element with one child, or none. -/
theorem Holds.unlink (h : s.Holds (plug (branch d (c, a) t .nil) k)) :
    (s.unlink a (addr t)).Holds (plug t k) := by
  obtain ⟨hnode, hk, hnodup⟩ := holds_plug.mp h
  obtain ⟨ha, ht, -⟩ := stored_branch.mp hnode
  rw [addr_branch] at hk
  obtain ⟨hnodup₁, haround, hdisj⟩ := nodup_plug.mp hnodup
  obtain ⟨hat, -, hnodupt, -, -⟩ := nodup_branch.mp hnodup₁
  have hak : a ∉ elementsAround k := hdisj (mem_branch.mpr (.inl rfl))
  have htk : (elements t).Disjoint (elementsAround k) := fun e he =>
    hdisj (mem_branch.mpr (.inr (.inl he)))
  obtain ⟨s₁, hs₁⟩ : ∃ s₁, s.adopt (addr t) (above k) = s₁ := ⟨_, rfl⟩
  have ht₁ : s₁.Stored (above k) t := hs₁ ▸ ht.adopt hnodupt
  have hk₁ : s₁.Around (some a) k := hk.congr (hs₁ ▸ adopt_root) fun e he =>
    hs₁ ▸ adopt_entry_of_ne (ne_of_notMem_elements fun het => htk het he)
  have hunlink : s.unlink a (addr t) = s₁.replace (above k) a (addr t) := by
    rw [Rb.unlink, parent_of_entry ha, hs₁]
  rw [hunlink]
  refine holds_plug.mpr ⟨ht₁.congr fun e he => ?_, hk₁.replace haround hak, ?_⟩
  · exact replace_entry_of_ne (ne_of_notMem_around (htk he))
  · exact nodup_plug.mpr ⟨hnodupt, haround, htk⟩

/-- An element whose left subtree is not empty gives its place to another one. -/
theorem Holds.supersede {l r : RbTree α} (h : s.Holds (plug (branch .left (c, a) l r) k))
    (hl : addr l = some b) (he : e ∉ elements (plug (branch .left (c, a) l r) k)) :
    ∃ s', s.supersede a e = some s' ∧ s'.Holds (plug (branch .left (c, e) l r) k) := by
  obtain ⟨hnode, hk, hnodup⟩ := holds_plug.mp h
  obtain ⟨ha, hsl, hsr⟩ := stored_branch.mp hnode
  rw [addr_branch] at hk
  obtain ⟨hnodup₁, haround, hdisj⟩ := nodup_plug.mp hnodup
  obtain ⟨hal, har, hnodupl, hnodupr, hlr⟩ := nodup_branch.mp hnodup₁
  simp only [mem_plug, mem_branch, not_or] at he
  obtain ⟨⟨hea, hel, her⟩, hek⟩ := he
  have hak : a ∉ elementsAround k := hdisj (mem_branch.mpr (.inl rfl))
  have hlk : ∀ f ∈ elements l, f ∉ elementsAround k := fun f hf =>
    hdisj (mem_branch.mpr (.inr (.inl hf)))
  have hrk : ∀ f ∈ elements r, f ∉ elementsAround k := fun f hf =>
    hdisj (mem_branch.mpr (.inr (.inr hf)))
  -- the states between the writes
  obtain ⟨s₁, hs₁⟩ : ∃ s₁, s.store e (s.entry a) = s₁ := ⟨_, rfl⟩
  obtain ⟨s₂, hs₂⟩ : ∃ s₂, s₁.replace (above k) a (some e) = s₂ := ⟨_, rfl⟩
  obtain ⟨s₃, hs₃⟩ : ∃ s₃, s₂.adopt (addr l) (some e) = s₃ := ⟨_, rfl⟩
  obtain ⟨s₄, hs₄⟩ : ∃ s₄, s₃.adopt (addr r) (some e) = s₄ := ⟨_, rfl⟩
  have he₁ : ∀ f, f ≠ e → s₁.entry f = s.entry f := fun f hf => hs₁ ▸ store_entry_of_ne hf
  have he₂ : ∀ f, f ∉ elementsAround k → s₂.entry f = s₁.entry f := fun f hf =>
    hs₂ ▸ replace_entry_of_ne (ne_of_notMem_around hf)
  have he₃ : ∀ f, f ∉ elements l → s₃.entry f = s₂.entry f := fun f hf =>
    hs₃ ▸ adopt_entry_of_ne (ne_of_notMem_elements hf)
  have he₄ : ∀ f, f ∉ elements r → s₄.entry f = s₃.entry f := fun f hf =>
    hs₄ ▸ adopt_entry_of_ne (ne_of_notMem_elements hf)
  -- the two nodes
  have ha₁ : s₁.entry a = links .left (addr l) (addr r) (above k) c := (he₁ a (Ne.symm hea)).trans ha
  have ha₂ : s₂.entry a = links .left (addr l) (addr r) (above k) c := (he₂ a hak).trans ha₁
  have ha₃ : s₃.entry a = links .left (addr l) (addr r) (above k) c := (he₃ a hal).trans ha₂
  have hnew : s₁.entry e = s.entry a := hs₁ ▸ store_entry
  have hnew₄ : s₄.entry e = links .left (addr l) (addr r) (above k) c := by
    rw [he₄ e her, he₃ e hel, he₂ e hek, hnew, ha]
  have hsupersede : s.supersede a e = some s₄ := by
    have hparent : s₁.parent a = above k := parent_of_entry ha₁
    have hleft : s₂.child .left a = some b := (child_of_entry ha₂).trans hl
    have hright : s₃.child .right a = addr r := child_flip_of_entry (d := .left) ha₃
    have hadopt : s₂.setParent b (some e) = s₃ := by
      rw [← hs₃, hl]
      rfl
    rw [Rb.supersede, hs₁, hparent, hs₂, hleft]
    show some ((s₂.setParent b (some e)).adopt ((s₂.setParent b (some e)).child .right a) (some e)) = _
    rw [hadopt, hright, hs₄]
  -- what hangs around them
  have hl₂ : s₂.Stored (some a) l := hsl.congr fun f hf => by
    rw [he₂ f (hlk f hf), he₁ f fun heq => hel (heq ▸ hf)]
  have hl₃ : s₃.Stored (some e) l := hs₃ ▸ hl₂.adopt hnodupl
  have hl₄ : s₄.Stored (some e) l := hl₃.congr fun f hf => he₄ f (hlr hf)
  have hr₃ : s₃.Stored (some a) r := hsr.congr fun f hf => by
    rw [he₃ f fun hfl => hlr hfl hf, he₂ f (hrk f hf), he₁ f fun heq => her (heq ▸ hf)]
  have hr₄ : s₄.Stored (some e) r := hs₄ ▸ hr₃.adopt hnodupr
  have hk₁ : s₁.Around (some a) k := hk.congr (hs₁ ▸ rfl) fun f hf => he₁ f fun heq => hek (heq ▸ hf)
  have hk₂ : s₂.Around (some e) k := hs₂ ▸ hk₁.replace haround hak
  have hroot₄ : s₄.root = s₂.root := by
    rw [← hs₄, ← hs₃, adopt_root, adopt_root]
  have hk₄ : s₄.Around (some e) k := hk₂.congr hroot₄ fun f hf => by
    rw [he₄ f fun hfr => hrk f hfr hf, he₃ f fun hfl => hlk f hfl hf]
  refine ⟨s₄, hsupersede, holds_plug.mpr ⟨stored_branch.mpr ⟨hnew₄, hl₄, hr₄⟩, ?_, ?_⟩⟩
  · rw [addr_branch]
    exact hk₄
  · refine nodup_plug.mpr ⟨nodup_branch.mpr ⟨hel, her, hnodupl, hnodupr, hlr⟩, haround, ?_⟩
    intro f hf
    obtain rfl | hf | hf := mem_branch.mp hf
    · exact hek
    · exact hlk f hf
    · exact hrk f hf

/-- The end of `RB_REMOVE`, when an element of the colour `c` above `t` is gone. -/
theorem removeFix {fuel : ℕ} (h : s.Holds (plug t k)) (hk : Hole k p n)
    (hnode : RedBlack (branch d (c, a) t .nil) c n) (hpc : p = .red → c = .black) (hfuel : k.length < fuel) :
    ∃ s' u m, (if c = .black then s.removeColor fuel (above k) (addr t) else some s) = some s' ∧
      s'.Holds u ∧ RedBlack u .black m ∧ elements u = elements (plug t k) := by
  cases c with
  | red =>
    obtain ⟨-, ht, -⟩ := hnode.of_branch_red
    obtain ⟨m, hm⟩ := hk.plug ht fun _ => rfl
    exact ⟨s, _, m, rfl, h, hm, rfl⟩
  | black =>
    obtain ⟨-, m, ct, cu, rfl, ht, -⟩ := hnode.of_branch_black
    have hshort : Short t m := by
      cases ct with
      | black => exact .black ht
      | red =>
        obtain ⟨b, x, y, rfl, hx, hy⟩ := ht.exists_branch_red d
        exact .red hx hy
    exact removeColor_holds h hshort hk hfuel

/-- `RB_REMOVE` of an element with one child, or none. -/
theorem remove_single {fuel : ℕ} (h : s.Holds (plug (branch d (c, a) t .nil) k))
    (hrb : RedBlack (plug (branch d (c, a) t .nil) k) .black m) (hfuel : k.length < fuel) :
    ∃ s' u m, s.remove fuel a = some (s', a) ∧ s'.Holds u ∧ RedBlack u .black m ∧
      elements u = elements (plug t k) := by
  obtain ⟨p, c', n, hk, hnode, hpc⟩ := hrb.hole
  obtain rfl : c' = c := by
    cases c with
    | red => exact hnode.of_branch_red.1
    | black => exact hnode.of_branch_black.1
  have ha := h.entry
  obtain ⟨s', u, m', hs', h', hrb', hsame⟩ := removeFix h.unlink hk hnode hpc hfuel
  refine ⟨s', u, m', ?_, h', hrb', hsame⟩
  have hremove : s.remove fuel a = (if s.color a = .black then
      (s.unlink a (addr t)).removeColor fuel (s.parent a) (addr t) else some (s.unlink a (addr t))).bind
        fun s => some (s, a) := by
    have hchild : (s.child .left a = addr t ∧ s.child .right a = none) ∨
        (s.child .left a = none ∧ s.child .right a = addr t) := by
      cases d with
      | left => exact .inl ⟨child_of_entry ha, child_flip_of_entry (d := .left) ha⟩
      | right => exact .inr ⟨child_flip_of_entry (d := .right) ha, child_of_entry ha⟩
    rw [remove]
    obtain ⟨hleft, hright⟩ | ⟨hleft, hright⟩ := hchild
    · rw [hleft, hright]
      cases addr t with
      | none => by_cases hcolor : s.color a = .black <;> simp [hcolor]
      | some b => by_cases hcolor : s.color a = .black <;> simp [hcolor]
    · rw [hleft, hright]
      by_cases hcolor : s.color a = .black <;> simp [hcolor]
  rw [hremove, color_of_entry ha, parent_of_entry ha, hs']
  rfl

omit [DecidableEq α] in
theorem plug_append_right {ks : List (RbCrumb α)} {l : RbTree α} :
    plug t (ks ++ ⟨.right, (c, e), l⟩ :: k) = plug (branch .left (c, e) l (plug t ks)) k :=
  plug_append

/-- The parent of the place that the next element leaves, after that has taken the place of `a`. -/
theorem above_superseded {ks : List (RbCrumb α)} {l : RbTree α}
    (hnodup : (elementsAround (ks ++ ⟨.right, (c, a), l⟩ :: k)).Nodup) :
    (if above (ks ++ ⟨.right, (c, a), l⟩ :: k) = some a then some e
      else above (ks ++ ⟨.right, (c, a), l⟩ :: k)) = above (ks ++ ⟨.right, (c, e), l⟩ :: k) := by
  cases ks with
  | nil => exact if_pos rfl
  | cons cr ks =>
    obtain ⟨d, ⟨c', b⟩, u⟩ := cr
    have hb := (nodup_around_cons.mp hnodup).2.2.1
    have ha : a ∈ elementsAround (ks ++ ⟨.right, (c, a), l⟩ :: k) := by
      have hmem : a ∈ elements (plug .nil (ks ++ ⟨.right, (c, a), l⟩ :: k)) := by
        rw [plug_append_right]
        exact mem_plug.mpr (.inl (mem_branch.mpr (.inl rfl)))
      simpa using mem_plug.mp hmem
    have hne : ¬some b = some a := by
      rintro ⟨⟩
      exact hb ha
    exact if_neg hne

/-- `RB_REMOVE` of an element with two children: the next element takes its place. -/
theorem remove_double {fuel : ℕ} {l r : RbTree α} {b' : α} (h : s.Holds (plug (branch .left (c, a) l r) k))
    (hl : addr l = some b) (hr : addr r = some b')
    (hrb : RedBlack (plug (branch .left (c, a) l r) k) .black m)
    (hfuel : (plug (branch .left (c, a) l r) k).height < fuel) :
    ∃ s' u m, s.remove fuel a = some (s', a) ∧ s'.Holds u ∧ RedBlack u .black m ∧
      elements u = (elements (plug (branch .left (c, a) l r) k)).erase a := by
  have hstored := (stored_branch.mp (holds_plug.mp h).1).2.2
  obtain ⟨ks, cs, e, z, hrz, hsides⟩ : ∃ ks cs e z, r = plug (branch .right (cs, e) z .nil) ks ∧
      ∀ cr ∈ ks, cr.side = .left := by
    cases r with
    | nil => cases hr
    | node v x y =>
      obtain ⟨⟨cs, e⟩, z, ks, hks, hside⟩ := exists_endmost .left v x y
      exact ⟨ks, cs, e, z, hks, hside⟩
  have hbefore := before_eq_nil hsides
  have hend : s.endmost .left fuel b' = some e := by
    have hheight := height_plug (t := branch .left (c, a) l r) (k := k)
    rw [height_branch] at hheight
    rw [endmost_eq hstored hr (by omega), hrz, elements_plug, hbefore]
    simp [ultimate, elements_branch]
  have hT : s.Holds (plug (branch .right (cs, e) z .nil) (ks ++ ⟨.right, (c, a), l⟩ :: k)) := by
    rw [plug_append_right, ← hrz]
    exact h
  have he := hT.entry
  obtain ⟨hnode, haround, hdisj⟩ := nodup_plug.mp hT.nodup
  have hez : e ∉ elements z := (nodup_branch.mp hnode).1
  have hek : e ∉ elementsAround (ks ++ ⟨.right, (c, a), l⟩ :: k) := hdisj (mem_branch.mpr (.inl rfl))
  have heT : e ∉ elements (plug z (ks ++ ⟨.right, (c, a), l⟩ :: k)) := fun hmem =>
    (mem_plug.mp hmem).elim hez hek
  -- the next element is taken out, and put in the place of the old one
  obtain ⟨s₁, hs₁⟩ : ∃ s₁, s.unlink e (addr z) = s₁ := ⟨_, rfl⟩
  have h₁ : s₁.Holds (plug z (ks ++ ⟨.right, (c, a), l⟩ :: k)) := hs₁ ▸ hT.unlink
  have hparent : s₁.parent e = above (ks ++ ⟨.right, (c, a), l⟩ :: k) := by
    have hentry : s₁.entry e = s.entry e := hs₁ ▸ unlink_entry_of_notMem (parent_of_entry he) hez hek
    rw [Rb.parent, hentry]
    exact parent_of_entry he
  rw [plug_append_right] at h₁ heT
  obtain ⟨s₂, hs₂, h₂⟩ := h₁.supersede hl heT
  rw [← plug_append_right] at h₂
  -- the colours
  have hrb' : RedBlack (plug (branch .right (cs, e) z .nil) (ks ++ ⟨.right, (c, a), l⟩ :: k)) .black m := by
    rw [plug_append_right, ← hrz]
    exact hrb
  obtain ⟨p, c', n, hhole, hrbe, hpc⟩ := hrb'.hole
  obtain rfl : c' = cs := by
    cases cs with
    | red => exact hrbe.of_branch_red.1
    | black => exact hrbe.of_branch_black.1
  have hlength : (ks ++ ⟨.right, (c, e), l⟩ :: k).length < fuel := by
    have hheight := height_plug (t := branch .right (c', e) z .nil) (k := ks ++ ⟨.right, (c, a), l⟩ :: k)
    rw [plug_append_right, ← hrz] at hheight
    simp only [List.length_append, List.length_cons] at hheight ⊢
    omega
  obtain ⟨s₃, u, m', hs₃, h₃, hu, hsame⟩ := removeFix h₂ hhole.relabel hrbe hpc hlength
  refine ⟨s₃, u, m', ?_, h₃, hu, ?_⟩
  · have hleft : s.child .left a = some b := (child_of_entry h.entry).trans hl
    have hright : s.child .right a = some b' := (child_flip_of_entry (d := .left) h.entry).trans hr
    have hremove : s.remove fuel a = (if s.color e = .black then
        s₂.removeColor fuel (above (ks ++ ⟨.right, (c, e), l⟩ :: k)) (addr z) else some s₂).bind
          fun s => some (s, a) := by
      rw [remove, hleft, hright]
      show (s.endmost .left fuel b').bind _ = _
      rw [hend, Option.bind_some, child_of_entry (d := .right) he]
      dsimp only
      rw [hs₁, hparent, parent_of_entry he, above_superseded haround]
      show (s₁.supersede a e).bind _ = _
      rw [hs₂]
      by_cases hcolor : s.color e = .black <;> simp [hcolor]
    rw [hremove, color_of_entry he, hs₃]
    rfl
  · have hnext : elements r = e :: elements (plug z ks) := by
      rw [hrz, elements_plug, elements_plug, hbefore]
      simp [elements_branch]
    have hsplit : elements (plug (branch .left (c, a) l r) k) = ((before k).map Prod.snd ++ elements l) ++
        a :: (e :: (elements (plug z ks) ++ (after k).map Prod.snd)) := by
      rw [elements_plug, elements_branch, hnext]
      simp
    have hnodup := h.nodup
    rw [hsplit] at hnodup ⊢
    rw [erase_middle hnodup, hsame, plug_append_right, elements_plug, elements_branch]
    simp

variable {cmp : α → α → ℤ} {l : List α} {fuel : ℕ}

/-- `RB_REMOVE` of an element that is in the tree. -/
theorem remove_sorted (h : s.Sorted cmp l) (hfuel : rounds l.length < fuel) (ha : a ∈ l) :
    ∃ s', s.remove fuel a = some (s', a) ∧ s'.Sorted cmp (l.erase a) := by
  obtain ⟨⟨t, m, ht, hrb, rfl⟩, hinc⟩ := h
  have hheight := (height_le_rounds hrb).trans_lt hfuel
  obtain ⟨c, x, y, k, rfl⟩ := exists_position ha
  have herased : Increasing cmp ((elements (plug (branch .left (c, a) x y) k)).erase a) :=
    hinc.sublist (List.erase_sublist ..)
  suffices hremove : ∃ s' u m', s.remove fuel a = some (s', a) ∧ s'.Holds u ∧ RedBlack u .black m' ∧
      elements u = (elements (plug (branch .left (c, a) x y) k)).erase a by
    obtain ⟨s', u, m', hs', h', hu, hsame⟩ := hremove
    exact ⟨s', hs', ⟨u, m', h', hu, hsame⟩, herased⟩
  have hlength : k.length < fuel := by
    have hplug := height_plug (t := branch .left (c, a) x y) (k := k)
    omega
  have hnodup := ht.nodup
  have hsplit : elements (plug (branch .left (c, a) x y) k) = ((before k).map Prod.snd ++ elements x) ++
      a :: (elements y ++ (after k).map Prod.snd) := by
    rw [elements_plug, elements_branch]
    simp
  have herase : (elements (plug (branch .left (c, a) x y) k)).erase a = ((before k).map Prod.snd ++
      elements x) ++ (elements y ++ (after k).map Prod.snd) := by
    rw [hsplit] at hnodup ⊢
    exact erase_middle hnodup
  cases x with
  | nil =>
    obtain ⟨s', u, m', hs', h', hu, hsame⟩ := remove_single (d := .right) ht hrb hlength
    refine ⟨s', u, m', hs', h', hu, ?_⟩
    rw [herase, hsame, elements_plug]
    simp
  | node v x₁ x₂ =>
    cases y with
    | nil =>
      obtain ⟨s', u, m', hs', h', hu, hsame⟩ := remove_single ht hrb hlength
      refine ⟨s', u, m', hs', h', hu, ?_⟩
      rw [herase, hsame, elements_plug]
      simp
    | node w y₁ y₂ => exact remove_double ht rfl rfl hrb hheight

end Rb

end MuslBsd.Trees
