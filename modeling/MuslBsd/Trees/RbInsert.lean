import MuslBsd.Trees.RbSearch

/-! `RB_INSERT` keeps the trees of `tree.h` balanced and in order. -/
namespace MuslBsd.Trees
open MuslBsd.Support BinaryTree Rb

variable {α : Type*} [DecidableEq α] {s s' : Rb α} {t u v x y z : RbTree α} {k : List (RbCrumb α)}
  {a b e g : α} {c c' p : Color} {d dp : Side} {q : Option α} {n m : ℕ}

namespace Rb

/-- The red element `e` below the red `b`, whose sibling is black, on the side `dp`: the round leaves a
black tree, and a black parent above the element to go on with. -/
theorem insertTurn_black
    (h : s.Holds (plug (branch d (.black, g) (branch dp (.red, b) (branch d (.red, e) x y) u) v) k))
    (hx : RedBlack x .black n) (hy : RedBlack y .black n) (hu : RedBlack u .black n)
    (hv : RedBlack v .black n) :
    ∃ s' e' b' t, s.insertTurn d e b g = some (s', e') ∧ s'.Holds (plug t k) ∧
      RedBlack t .black (n + 1) ∧ s'.parent e' = some b' ∧ s'.color b' = .black ∧
      elements t = elements (branch d (.black, g) (branch dp (.red, b) (branch d (.red, e) x y) u) v) := by
  have hg := h.entry
  have htmp : s.isBlack (s.child d.flip g) = true := by
    rw [child_flip_of_entry hg]
    exact (stored_branch.mp (holds_plug.mp h).1).2.2.isBlack hv
  have hb : s.entry b = links dp (some e) (addr u) (some g) .red := by
    have hb : s.Holds (plug (branch dp (.red, b) (branch d (.red, e) x y) u) (⟨d, (.black, g), v⟩ :: k)) := h
    have hentry := hb.entry
    rwa [addr_branch] at hentry
  obtain rfl | rfl : dp = d.flip ∨ d = dp := by
    cases dp <;> cases d <;> simp
  · -- the element is on the inner side
    have hinner : s.child d.flip b = some e := child_of_entry hb
    rw [branch_flip] at h
    have h₁ : s.Holds (plug (branch d (.red, b) u (branch d (.red, e) x y)) (⟨d, (.black, g), v⟩ :: k)) := h
    obtain ⟨s₁, hs₁, h₁⟩ := h₁.rotate
    have h₂ : (s₁.setColor e .black).Holds (plug (branch d (.black, g)
        (branch d (.black, e) (branch d (.red, b) u x) y) v) k) := h₁.setColor
    have h₃ : (s₁.setBlackRed e g).Holds (plug (branch d (.red, g)
        (branch d (.black, e) (branch d (.red, b) u x) y) v) k) := h₂.setColor
    obtain ⟨s₂, hs₂, h₄⟩ := h₃.rotate_flip
    have hchild : s₂.Holds (plug (branch d (.red, b) u x) (⟨d, (.black, e), branch d (.red, g) y v⟩ :: k)) :=
      h₄
    refine ⟨s₂, b, e, _, ?_, h₄, ?_, parent_of_entry hchild.entry, color_of_entry h₄.entry, ?_⟩
    · simp only [insertTurn, htmp, hinner, if_true, hs₁, hs₂, Option.bind_eq_bind, Option.bind_some,
        Option.pure_def]
    · exact (hu.branch_red hx).branch_black (hy.branch_red hv)
    · calc elements (branch d (.black, e) (branch d (.red, b) u x) (branch d (.red, g) y v))
        _ = elements (branch d (.black, g) (branch d (.black, e) (branch d (.red, b) u x) y) v) :=
          elements_rotate.symm
        _ = elements (branch d (.black, g) (branch d (.red, b) u (branch d (.red, e) x y)) v) :=
          elements_branch_congr elements_rotate rfl
        _ = _ := by rw [branch_flip]
  · -- the element is on the outer side
    have h₁ : s.Holds (plug (branch d (.red, b) (branch d (.red, e) x y) u) (⟨d, (.black, g), v⟩ :: k)) := h
    have houter : ¬s.child d.flip b = some e := by
      rw [child_flip_of_entry hb]
      exact h₁.addr_ne addr_branch
    have h₂ : (s.setColor b .black).Holds (plug (branch d (.black, g)
        (branch d (.black, b) (branch d (.red, e) x y) u) v) k) := h₁.setColor
    have h₃ : (s.setBlackRed b g).Holds (plug (branch d (.red, g)
        (branch d (.black, b) (branch d (.red, e) x y) u) v) k) := h₂.setColor
    obtain ⟨s₂, hs₂, h₄⟩ := h₃.rotate_flip
    have hchild : s₂.Holds (plug (branch d (.red, e) x y) (⟨d, (.black, b), branch d (.red, g) u v⟩ :: k)) :=
      h₄
    refine ⟨s₂, e, b, _, ?_, h₄, ?_, parent_of_entry hchild.entry, color_of_entry h₄.entry, ?_⟩
    · simp only [insertTurn, htmp, houter, if_true, if_false, hs₂, Option.bind_eq_bind,
        Option.bind_some, Option.pure_def]
    · exact (hx.branch_red hy).branch_black (hu.branch_red hv)
    · exact elements_rotate.symm

/-- The same with a red sibling: the red moves up. -/
theorem insertTurn_red
    (h : s.Holds (plug (branch d (.black, g) (branch dp (.red, b) t u) (branch d (.red, a) x y)) k)) :
    ∃ s', s.insertTurn d e b g = some (s', g) ∧ s'.Holds (plug (branch d (.red, g)
      (branch dp (.black, b) t u) (branch d (.black, a) x y)) k) := by
  have hg := h.entry
  rw [addr_branch, addr_branch] at hg
  have hchild : s.child d.flip g = some a := child_flip_of_entry hg
  have h₁ : s.Holds (plug (branch d (.red, a) x y) (⟨d.flip, (.black, g), branch dp (.red, b) t u⟩ :: k)) := by
    rw [plug, Crumb.fill, branch_flip]
    exact h
  have ha : s.isBlack (some a) = false := by
    show decide (s.color a = .black) = false
    rw [color_of_entry h₁.entry]
    rfl
  have h₂ : (s.setColor a .black).Holds (plug (branch d (.black, a) x y)
      (⟨d.flip, (.black, g), branch dp (.red, b) t u⟩ :: k)) := h₁.setColor
  rw [plug, Crumb.fill, branch_flip] at h₂
  have h₃ : (s.setColor a .black).Holds (plug (branch dp (.red, b) t u)
      (⟨d, (.black, g), branch d (.black, a) x y⟩ :: k)) := h₂
  have h₄ : ((s.setColor a .black).setColor b .black).Holds (plug (branch d (.black, g)
      (branch dp (.black, b) t u) (branch d (.black, a) x y)) k) := h₃.setColor
  have h₅ : ((s.setColor a .black).setBlackRed b g).Holds (plug (branch d (.red, g)
      (branch dp (.black, b) t u) (branch d (.black, a) x y)) k) := h₄.setColor
  refine ⟨_, ?_, h₅⟩
  simp only [insertTurn, hchild, ha, setColorOf, reduceCtorEq, if_false]

/-- The end of `RB_INSERT_COLOR`. -/
theorem insertDone (h : s.Holds t) (he : e ∈ elements t) :
    ∃ s', s.root.map (fun r => s.setColor r .black) = some s' ∧ s'.Holds (blacken t) := by
  obtain ⟨r, hr⟩ := h.exists_root he
  exact ⟨s.setColor r .black, by rw [hr]; rfl, h.blacken hr⟩

/-- `RB_INSERT_COLOR` with a red element at a position that it fits except for its colour. -/
theorem insertColor_holds {fuel : ℕ} (h : s.Holds (plug (branch d (.red, e) x y) k))
    (hx : RedBlack x .black n) (hy : RedBlack y .black n) (hk : Hole k p n) (hfuel : k.length < fuel) :
    ∃ s' t m, s.insertColor fuel e = some s' ∧ s'.Holds t ∧ RedBlack t .black m ∧
      elements t = elements (plug (branch d (.red, e) x y) k) := by
  induction fuel generalizing s d e x y k p n with
  | zero => omega
  | succ fuel ih =>
    have he := h.entry
    have hmem : e ∈ elements (plug (branch d (.red, e) x y) k) :=
      mem_plug.mpr (.inl (mem_branch.mpr (.inl rfl)))
    cases hk with
    | root =>
      obtain ⟨m, hm⟩ := (hx.branch_red (d := d) (a := e) hy).blacken
      obtain ⟨s', hs', h'⟩ := insertDone h hmem
      refine ⟨s', _, m, ?_, h', hm, elements_blacken⟩
      rw [insertColor, parent_of_entry he]
      exact hs'
    | @black dp b u k cu p n hu hk =>
      -- the parent is black
      obtain ⟨m, hm⟩ := (Hole.black (d := dp) (a := b) hu hk).plug (hx.branch_red (d := d) (a := e) hy)
        fun h => absurd h (by decide)
      rw [← hm.blacken_eq] at hm
      obtain ⟨s', hs', h'⟩ := insertDone h hmem
      have hb : s.color b = .black := color_of_entry (d := dp) (holds_plug.mp h).2.1.1
      refine ⟨s', _, m, ?_, h', hm, elements_blacken⟩
      rw [insertColor, parent_of_entry he]
      show (if s.color b = .red then _ else _) = _
      rw [hb]
      exact hs'
    | @red dp b u k n hu hk =>
      -- the parent is red, so it has a parent, which is black
      cases hk with
      | @black dg g v k cv p n hv hk =>
      have hb : s.entry b = links dp (addr (branch d (.red, e) x y)) (addr u) (some g) .red :=
        (holds_plug.mp h).2.1.1
      have hg : s.Holds (plug (branch dg (.black, g) (branch dp (.red, b) (branch d (.red, e) x y) u) v) k) := h
      have hside : (if s.child .left g = some b then Side.left else .right) = dg := by
        have hentry := hg.entry
        rw [addr_branch] at hentry
        exact side_of_entry hentry (hg.addr_ne addr_branch)
      obtain ⟨x', y', hflip, hx', hy'⟩ : ∃ x' y', branch d (Color.red, e) x y = branch dg (.red, e) x' y' ∧
          RedBlack x' .black n ∧ RedBlack y' .black n := by
        obtain rfl | rfl : d = dg ∨ d = dg.flip := by
          cases d <;> cases dg <;> simp
        · exact ⟨x, y, rfl, hx, hy⟩
        · exact ⟨y, x, branch_flip, hy, hx⟩
      have hturn : s.insertColor (fuel + 1) e =
          (s.insertTurn dg e b g).bind fun r => insertColor fuel r.1 r.2 := by
        rw [insertColor, parent_of_entry he]
        show (if s.color b = .red then _ else _) = _
        rw [color_of_entry hb, if_pos rfl, parent_of_entry hb]
        show (s.insertTurn (if s.child .left g = some b then .left else .right) e b g).bind _ = _
        rw [hside]
      cases cv with
      | black =>
        rw [hflip] at hg
        obtain ⟨s₁, e₁, b₁, t, hs₁, h₁, ht, hparent, hcolor, hsame⟩ :=
          insertTurn_black hg hx' hy' hu hv
        obtain ⟨m, hm⟩ := hk.plug ht fun _ => rfl
        rw [← hm.blacken_eq] at hm
        obtain ⟨f, w₁, w₂, hw⟩ := ht.exists_branch dg
        have hmem : f ∈ elements (plug t k) := mem_plug.mpr (.inl (hw ▸ mem_branch.mpr (.inl rfl)))
        obtain ⟨s₂, hs₂, h₂⟩ := insertDone h₁ hmem
        refine ⟨s₂, _, m, ?_, h₂, hm, elements_blacken.trans (elements_plug_congr ?_)⟩
        · obtain ⟨fuel, rfl⟩ := Nat.exists_eq_add_one_of_ne_zero (n := fuel) (by simp at hfuel; omega)
          rw [hturn, hs₁]
          show s₁.insertColor (fuel + 1) e₁ = _
          rw [insertColor, hparent]
          show (if s₁.color b₁ = .red then _ else _) = _
          rw [hcolor]
          exact hs₂
        · exact hsame.trans (by rw [← hflip]; rfl)
      | red =>
        obtain ⟨a, v₁, v₂, rfl, hv₁, hv₂⟩ := hv.exists_branch_red dg
        obtain ⟨s₁, hs₁, h₁⟩ := insertTurn_red (e := e) hg
        rw [hturn, hs₁]
        obtain ⟨s₂, t, m, hs₂, h₂, ht, hsame⟩ := ih h₁
          ((hx.branch_red hy).branch_black hu) (hv₁.branch_black hv₂) hk (by simp at hfuel; omega)
        refine ⟨s₂, t, m, hs₂, h₂, ht, hsame.trans ?_⟩
        exact elements_plug_congr (elements_branch_congr (elements_branch_congr rfl rfl)
          (elements_branch_congr rfl rfl))

/-- The element `e`, which is red, is linked in at a place without a tree. -/
theorem Holds.attach (h : s.Holds (plug .nil k)) (he : e ∉ elementsAround k) {i : ℤ} (hi : Turned i k) :
    ((above k).elim { (s.store e ⟨none, none, above k, .red⟩) with root := some e } fun p =>
      (s.store e ⟨none, none, above k, .red⟩).setChild (if i < 0 then .left else .right) p (some e)).Holds
        (plug (branch .left (.red, e) .nil .nil) k) := by
  obtain ⟨-, hk, hnodup⟩ := holds_plug.mp h
  have hnodup' : (elements (plug (branch .left (Color.red, e) .nil .nil) k)).Nodup := by
    rw [nodup_plug] at hnodup ⊢
    refine ⟨nodup_branch.mpr (by simp), hnodup.2.1, ?_⟩
    simpa [List.disjoint_left, mem_branch] using he
  have hstore : (s.store e ⟨none, none, above k, .red⟩).Around none k := hk.congr rfl fun a ha =>
    store_entry_of_ne fun heq => he (heq ▸ ha)
  have hentry : (s.store e ⟨none, none, above k, .red⟩).entry e = links .left none none (above k) .red :=
    store_entry
  cases k with
  | nil =>
    refine holds_plug.mpr ⟨stored_branch.mpr ⟨hentry, trivial, trivial⟩, ?_, hnodup'⟩
    rfl
  | cons cr k =>
    obtain ⟨d, ⟨c, a⟩, u⟩ := cr
    obtain ⟨ha, hu, hk'⟩ := hstore
    obtain ⟨⟨hau, -⟩, -, hak, -⟩ := nodup_around_cons.mp (nodup_plug.mp hnodup).2.1
    have hea : e ≠ a := fun heq => he (mem_around_cons.mpr (.inl heq))
    have hside : (if i < 0 then Side.left else .right) = d := hi _ rfl
    show (Rb.setChild _ (if i < 0 then Side.left else .right) a (some e)).Holds _
    rw [hside]
    refine holds_plug.mpr ⟨stored_branch.mpr ⟨?_, trivial, trivial⟩, ?_, hnodup'⟩
    · rw [setChild_entry_of_ne hea]
      exact hentry
    · refine ⟨setChild_entry ha, hu.congr fun b hb => setChild_entry_of_ne ?_,
        hk'.congr rfl fun b hb => setChild_entry_of_ne ?_⟩
      · exact fun heq => hau (heq ▸ hb)
      · exact fun heq => hak (heq ▸ hb)

/-! ### Insertion -/

variable {cmp : α → α → ℤ} {l : List α} {fuel : ℕ}

/-- An element that compares equal to one in the tree is not inserted. -/
theorem insert_old (hcmp : ∀ l, Consistent cmp l) (h : s.Sorted cmp l) (hfuel : rounds l.length < fuel)
    (hold : l.find? (cmp e · = 0) = some a) : s.insert cmp fuel e = some (s, some a) := by
  obtain ⟨⟨t, n, ht, hrb, rfl⟩, hinc⟩ := h
  have hheight := (height_le_rounds hrb).trans_lt hfuel
  obtain ⟨b, hb, hplace⟩ | ⟨hnone, -⟩ := insertPlace_cases ht (hinc.cuts hcmp e) hheight
  · cases hold.symm.trans hb
    rw [insert, hplace]
    rfl
  · cases hold.symm.trans hnone

/-- Any other element is inserted at its place. -/
theorem insert_new (hcmp : ∀ l, Consistent cmp l) (h : s.Sorted cmp l) (hfuel : rounds l.length < fuel)
    (hnew : l.find? (cmp e · = 0) = none) :
    ∃ s', s.insert cmp fuel e = some (s', none) ∧ s'.Sorted cmp (insertAt cmp e l) := by
  obtain ⟨⟨t, m, ht, hrb, rfl⟩, hinc⟩ := h
  have hheight := (height_le_rounds hrb).trans_lt hfuel
  obtain ⟨b, hb, hplace⟩ | ⟨-, k, i, rfl, hi, hplace, hbefore, hafter⟩ :=
    insertPlace_cases ht (hinc.cuts hcmp e) hheight
  · cases hnew.symm.trans hb
  have hsplit : elements (plug (.nil : RbTree α) k) =
      (before k).map Prod.snd ++ (after k).map Prod.snd := by
    simp [elements, inorder_plug]
  have he : e ∉ elementsAround k := by
    intro hmem
    have hself := (hcmp [e]).self (x := e) (by simp)
    rw [elementsAround, List.map_append, List.mem_append] at hmem
    obtain hmem | hmem := hmem
    · have hpos := hbefore e hmem
      omega
    · have hneg := hafter e hmem
      omega
  obtain ⟨p, c, n, hhole, hnil, -⟩ := hrb.hole
  cases hnil
  have hlength : k.length < fuel := by
    have hplug := height_plug (t := (.nil : RbTree α)) (k := k)
    omega
  obtain ⟨s', t', m', hs', ht', hrb', hsame⟩ :=
    insertColor_holds (ht.attach he hi) .nil .nil hhole hlength
  have helements : elements t' = insertAt cmp e (elements (plug (.nil : RbTree α) k)) := by
    rw [hsame, hsplit, insertAt_eq hbefore hafter]
    simp [elements, inorder_plug, branch]
  refine ⟨s', ?_, ⟨t', m', ht', hrb', helements⟩, ?_⟩
  · rw [insert, hplace]
    cases hk : above k with
    | none =>
      rw [hk] at hs'
      show ((_ : Rb α).insertColor fuel e).bind _ = _
      exact hs' ▸ rfl
    | some p =>
      rw [hk] at hs'
      show ((_ : Rb α).insertColor fuel e).bind _ = _
      exact hs' ▸ rfl
  · rw [hsplit] at hinc ⊢
    rw [insertAt_eq hbefore hafter]
    exact hinc.insert hcmp hbefore hafter

end Rb

end MuslBsd.Trees
