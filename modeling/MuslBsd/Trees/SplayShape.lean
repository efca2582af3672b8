import MuslBsd.Trees.Splay

/-! Splay trees in memory: what a round of `SPLAY` does to the tree and to the two trees on its
sides, and how they are put together at the end. -/
namespace MuslBsd.Trees
open MuslBsd.Support BinaryTree

variable {α : Type*}

/-- The pointer to a tree. -/
def top : BinaryTree α → Option α
  | .nil => none
  | .node a _ _ => some a

/-- The elements around a position. -/
def spine (k : List (Crumb α)) : List α := before k ++ after k

namespace Splay

/-- The tree `t` is in memory. -/
def Stored (s : Splay α) : BinaryTree α → Prop
  | .nil => True
  | .node a l r => s.child .left a = top l ∧ s.child .right a = top r ∧ Stored s l ∧ Stored s r

/-- The head holds the tree `t`. -/
structure Holds (s : Splay α) (t : BinaryTree α) : Prop where
  root : s.root = top t
  stored : s.Stored t
  nodup : (inorder t).Nodup

end Splay

/-- The place with the pointer to a position: in the element above, or in `__node`. -/
def spotOf : List (Crumb α) → Spot α
  | [] => .node
  | c :: _ => .elm c.value

/-- The tree on a side of a splay step is in memory from `__node` down to a position on its edge,
with `p` as the pointer there. -/
def Splaying.Hung (s : Splaying α) (d : Side) : Option α → List (Crumb α) → Prop
  | p, [] => s.node.child d = p
  | p, c :: k => c.side = d ∧ s.tree.child d c.value = p ∧ s.tree.child d.flip c.value = top c.sibling ∧
    s.tree.Stored c.sibling ∧ Hung s d (some c.value) k

/-- All elements of a splay step: those on the left, those of the tree, those on the right. -/
def whole (K : Side → List (Crumb α)) (t : BinaryTree α) : List α :=
  before (K .right) ++ inorder t ++ after (K .left)

/-- In the middle of `SPLAY`, with the tree `t` below the root and the ways down the edges of the two
other trees. -/
structure Splaying.Mid (s : Splaying α) (t : BinaryTree α) (K : Side → List (Crumb α)) : Prop where
  root : s.tree.root = top t
  stored : s.tree.Stored t
  hung : ∀ d, ∃ p, s.Hung d p (K d)
  hook : ∀ d, s.hook d = spotOf (K d)
  nodup : (whole K t).Nodup

variable {s s' : Splay α} {g g' : Splaying α} {t u x y z : BinaryTree α} {k : List (Crumb α)}
  {K : Side → List (Crumb α)} {a b e : α} {d : Side} {p q : Option α} {c : Crumb α}
  {i : Spot α}

theorem top_branch : top (branch d a t u) = some a := by
  cases d <;> rfl

theorem top_mem (h : top t = some a) : a ∈ inorder t := by
  cases t with
  | nil => cases h
  | node b l r =>
    cases h
    simp

theorem mem_spine_cons : e ∈ spine (c :: k) ↔ e = c.value ∨ e ∈ inorder c.sibling ∨ e ∈ spine k := by
  obtain ⟨d, a, u⟩ := c
  cases d with
  | left =>
    simp only [spine, before, after, Crumb.before, Crumb.after, List.append_nil, List.mem_append,
      List.mem_cons]
    tauto
  | right =>
    simp only [spine, before, after, Crumb.before, Crumb.after, List.nil_append, List.mem_append,
      List.mem_singleton]
    tauto

namespace Splay

theorem stored_branch : s.Stored (branch d a t u) ↔
    s.child d a = top t ∧ s.child d.flip a = top u ∧ s.Stored t ∧ s.Stored u := by
  cases d with
  | left => rfl
  | right =>
    show _ ∧ _ ∧ _ ∧ _ ↔ _ ∧ _ ∧ _ ∧ _
    tauto

theorem child_of_entry {s s' : Splay α} (h : s'.entry a = s.entry a) : s'.child d a = s.child d a := by
  rw [child, h, child]

theorem Stored.congr (h : s.Stored t) (hs : ∀ e ∈ inorder t, s'.entry e = s.entry e) : s'.Stored t := by
  induction t with
  | nil => trivial
  | node a l r hl hr =>
    obtain ⟨hleft, hright, hsl, hsr⟩ := h
    have ha : s'.entry a = s.entry a := hs a (by simp)
    exact ⟨(child_of_entry ha).trans hleft, (child_of_entry ha).trans hright,
      hl hsl fun e he => hs e (by simp [he]), hr hsr fun e he => hs e (by simp [he])⟩

end Splay

namespace Splaying

theorem Hung.congr (h : g.Hung d p k) (hnode : g'.node.child d = g.node.child d)
    (hs : ∀ e ∈ spine k, g'.tree.entry e = g.tree.entry e) : g'.Hung d p k := by
  induction k generalizing p with
  | nil => exact hnode.trans h
  | cons c k ih =>
    obtain ⟨hside, hp, hother, hu, hk⟩ := h
    have hc : g'.tree.entry c.value = g.tree.entry c.value := hs _ (mem_spine_cons.mpr (.inl rfl))
    exact ⟨hside, (Splay.child_of_entry hc).trans hp, (Splay.child_of_entry hc).trans hother,
      hu.congr fun e he => hs e (mem_spine_cons.mpr (.inr (.inl he))),
      ih hk fun e he => hs e (mem_spine_cons.mpr (.inr (.inr he)))⟩

/-- The tree on a side, when a tree is put at its edge. -/
theorem Hung.stored (h : g.Hung d (top t) k) (ht : g.tree.Stored t) :
    g.node.child d = top (plug t k) ∧ g.tree.Stored (plug t k) := by
  induction k generalizing t with
  | nil => exact ⟨h, ht⟩
  | cons c k ih =>
    obtain ⟨d', a, u⟩ := c
    obtain ⟨rfl, hp, hother, hu, hk⟩ := h
    refine ih (t := branch d' a t u) ?_ (Splay.stored_branch.mpr ⟨hp, hother, ht, hu⟩)
    rw [top_branch]
    exact hk

theorem Hung.sides (h : g.Hung d p k) : ∀ c ∈ k, c.side = d := by
  induction k generalizing p with
  | nil => simp
  | cons c k ih =>
    intro c' hc'
    obtain rfl | hc' := List.mem_cons.mp hc'
    · exact h.1
    · exact ih h.2.2.2.2 c' hc'

end Splaying

/-! ### The parts have nothing in common -/

theorem spine_eq_after (h : ∀ c ∈ k, c.side = .left) : spine k = after k := by
  rw [spine, before_eq_nil h, List.nil_append]

theorem spine_eq_before (h : ∀ c ∈ k, c.side = .right) : spine k = before k := by
  rw [spine, after_eq_nil h, List.append_nil]

theorem Splaying.Mid.sides (h : g.Mid t K) (d : Side) : ∀ c ∈ K d, c.side = d := by
  obtain ⟨p, hp⟩ := h.hung d
  exact hp.sides

theorem Splaying.Mid.whole_eq (h : g.Mid t K) :
    whole K t = spine (K .right) ++ inorder t ++ spine (K .left) := by
  rw [whole, spine_eq_before (h.sides .right), spine_eq_after (h.sides .left)]

theorem Splaying.Mid.mem_whole (h : g.Mid t K) (he : e ∈ spine (K d)) : e ∈ whole K t := by
  rw [h.whole_eq]
  cases d with
  | left => exact List.mem_append_right _ he
  | right => exact List.mem_append_left _ (List.mem_append_left _ he)

/-- The tree in the middle and the edges of the others. -/
structure Apart (t : BinaryTree α) (K : Side → List (Crumb α)) : Prop where
  nodup : (inorder t).Nodup
  spine : ∀ d, (spine (K d)).Nodup
  tree : ∀ d, ∀ e ∈ Trees.spine (K d), e ∉ inorder t
  flip : ∀ d, ∀ e ∈ Trees.spine (K d), e ∉ Trees.spine (K d.flip)

theorem Splaying.Mid.apart (h : g.Mid t K) : Apart t K := by
  have hnodup := h.nodup
  rw [h.whole_eq] at hnodup
  obtain ⟨hrt, hl, hdisj⟩ := List.nodup_append'.mp hnodup
  obtain ⟨hr, ht, hdisj'⟩ := List.nodup_append'.mp hrt
  refine ⟨ht, fun d => ?_, fun d e he => ?_, fun d e he => ?_⟩
  · cases d with
    | left => exact hl
    | right => exact hr
  · cases d with
    | left => exact fun het => hdisj (List.mem_append_right _ het) he
    | right => exact hdisj' he
  · cases d with
    | left => exact fun her => hdisj (List.mem_append_left _ her) he
    | right => exact hdisj (List.mem_append_left _ he)

@[simp] theorem setHook_hook : (g.setHook d i).hook d = i := by
  cases d <;> rfl

@[simp] theorem setHook_hook_flip : (g.setHook d i).hook d.flip = g.hook d.flip := by
  cases d <;> rfl

@[simp] theorem setHook_node : (g.setHook d i).node = g.node := by
  cases d <;> rfl

theorem ne_spotOf (h : e ∉ spine k) : ∀ b, spotOf k = .elm b → e ≠ b := by
  intro b hb heq
  cases k with
  | nil => cases hb
  | cons c k =>
    cases hb
    exact h (heq ▸ mem_spine_cons.mpr (.inl rfl))

theorem notMem_of_nodup_cons (h : (spine (c :: k)).Nodup) :
    c.value ∉ inorder c.sibling ∧ c.value ∉ spine k := by
  obtain ⟨d, a, u⟩ := c
  cases d with
  | left =>
    have hnodup : (before k ++ a :: (inorder u ++ after k)).Nodup := by
      simpa [spine, before, after, Crumb.before, Crumb.after] using h
    have ha := (List.nodup_cons.mp (List.nodup_middle.mp hnodup)).1
    simp only [List.mem_append, not_or] at ha
    simp [spine, ha]
  | right =>
    have hnodup : ((before k ++ inorder u) ++ a :: after k).Nodup := by
      simpa [spine, before, after, Crumb.before, Crumb.after] using h
    have ha := (List.nodup_cons.mp (List.nodup_middle.mp hnodup)).1
    simp only [List.mem_append, not_or] at ha
    simp [spine, ha]

/-- The root and what hangs on its other side go to the edge of the tree on that side. -/
theorem whole_update (d : Side) : whole (Function.update K d (⟨d, a, y⟩ :: K d)) x = whole K (branch d a x y) := by
  cases d <;> simp [whole, before, after, Crumb.before, Crumb.after, branch]

/-! ### The way of a key -/

section

variable {f : α → ℤ}

/-- Where `SPLAY` stops: at the key, or at an end of the way to it. -/
def Settled (f : α → ℤ) : BinaryTree α → Prop
  | .nil => False
  | .node a l r => f a = 0 ∨ (f a < 0 ∧ l = .nil) ∨ (0 < f a ∧ r = .nil)

theorem Splaying.goes_iff {u : BinaryTree α} : Splaying.goes d (f a) = true ↔ Crumb.Toward f ⟨d, a, u⟩ := by
  cases d <;> simp [Splaying.goes, Crumb.Toward]

theorem Splaying.settled_of_toward (h : Splaying.goes d (f a) = true) : Settled f (branch d a .nil y) := by
  cases d with
  | left => exact .inr (.inl ⟨by simpa [Splaying.goes] using h, rfl⟩)
  | right => exact .inr (.inr ⟨by simpa [Splaying.goes] using h, rfl⟩)

theorem Splaying.guided_update {c : Crumb α} (hK : ∀ i, Guided f (K i)) (hc : c.Toward f) (d i : Side) :
    Guided f (Function.update K d (c :: K d) i) := by
  obtain rfl | hne := eq_or_ne i d
  · rw [Function.update_self]
    exact .cons hc (hK i)
  · rw [Function.update_of_ne hne]
    exact hK i

end

/-! ### Writes -/

section

variable [DecidableEq α]

namespace Splay

theorem setChild_entry_of_ne (h : e ≠ a) : (s.setChild d a p).entry e = s.entry e :=
  Function.update_of_ne h ..

@[simp] theorem child_setChild : (s.setChild d a p).child d a = p := by
  cases d <;> simp [child, setChild, SplayEntry.child, SplayEntry.setChild]

@[simp] theorem child_flip_setChild : (s.setChild d a p).child d.flip a = s.child d.flip a := by
  cases d <;> simp [child, setChild, SplayEntry.child, SplayEntry.setChild]

@[simp] theorem child_setChild_flip : (s.setChild d.flip a p).child d a = s.child d a := by
  cases d <;> simp [child, setChild, SplayEntry.child, SplayEntry.setChild]

end Splay

namespace Splaying

theorem setChild_entry_of_ne (h : ∀ b, i = .elm b → e ≠ b) :
    (g.setChild d i p).tree.entry e = g.tree.entry e := by
  cases i with
  | node => rfl
  | elm b => exact Splay.setChild_entry_of_ne (h b rfl)

@[simp] theorem setChild_root : (g.setChild d i p).tree.root = g.tree.root := by
  cases i <;> rfl

theorem setChild_node_flip : (g.setChild d i p).node.child d.flip = g.node.child d.flip := by
  cases i with
  | node => cases d <;> rfl
  | elm b => rfl

/-- The pointer at the edge is replaced. -/
theorem Hung.set (h : g.Hung d p k) (hk : (spine k).Nodup) : (g.setChild d (spotOf k) q).Hung d q k := by
  cases k with
  | nil =>
    cases d <;> rfl
  | cons c k =>
    obtain ⟨hside, hp, hother, hu, hrest⟩ := h
    obtain ⟨hcu, hck⟩ := notMem_of_nodup_cons hk
    refine ⟨hside, Splay.child_setChild, Splay.child_flip_setChild.trans hother,
      hu.congr fun e he => Splay.setChild_entry_of_ne fun heq => hcu (heq ▸ he),
      hrest.congr rfl fun e he => Splay.setChild_entry_of_ne fun heq => hck (heq ▸ he)⟩

@[simp] theorem setChild_hook {d' : Side} : (g.setChild d i p).hook d' = g.hook d' := by
  cases i <;> cases d' <;> rfl

/-- The root is linked to the tree on a side. -/
theorem Mid.link (h : g.Mid (branch d a x y) K) :
    (g.link d a).Mid x (Function.update K d (⟨d, a, y⟩ :: K d)) := by
  have hap := h.apart
  obtain ⟨hx, hy, hsx, hsy⟩ := Splay.stored_branch.mp h.stored
  have ha : ∀ i, a ∉ spine (K i) := fun i ha => hap.tree i a ha (mem_inorder_branch.mpr (.inl rfl))
  obtain ⟨g₁, hg₁⟩ : ∃ g₁, g.setChild d (spotOf (K d)) (some a) = g₁ := ⟨_, rfl⟩
  have he₁ : ∀ e, e ∉ spine (K d) → g₁.tree.entry e = g.tree.entry e := fun e he =>
    hg₁ ▸ setChild_entry_of_ne (ne_spotOf he)
  have hout : ∀ e, e ∈ inorder (branch d a x y) → g₁.tree.entry e = g.tree.entry e := fun e he =>
    he₁ e fun hk => hap.tree d e hk he
  have hlink : g.link d a = { g₁.setHook d (.elm a) with
      tree := { g₁.tree with root := g₁.tree.child d a } } := by
    rw [Splaying.link, h.hook, hg₁]
    cases d <;> rfl
  have hchild : g₁.tree.child d a = top x :=
    (Splay.child_of_entry (hout a (mem_inorder_branch.mpr (.inl rfl)))).trans hx
  have hother : g₁.tree.child d.flip a = top y :=
    (Splay.child_of_entry (hout a (mem_inorder_branch.mpr (.inl rfl)))).trans hy
  have hnode : (g.link d a).node = g₁.node := by
    rw [hlink]
    exact setHook_node
  have hentry : (g.link d a).tree.entry = g₁.tree.entry := by
    rw [hlink]
  have hentry' : ∀ e, (g.link d a).tree.entry e = g₁.tree.entry e := fun e => congrFun hentry e
  constructor
  · rw [hlink]
    exact hchild
  · exact hsx.congr fun e he => (hentry' e).trans (hout e (mem_inorder_branch.mpr (.inr (.inl he))))
  · intro i
    obtain rfl | rfl : i = d ∨ i = d.flip := by
      cases i <;> cases d <;> simp
    · obtain ⟨p, hp⟩ := h.hung i
      have hset : g₁.Hung i (some a) (K i) := hg₁ ▸ hp.set (hap.spine i)
      refine ⟨top x, ?_⟩
      rw [Function.update_self]
      exact ⟨rfl, (Splay.child_of_entry (hentry' a)).trans hchild,
        (Splay.child_of_entry (hentry' a)).trans hother,
        hsy.congr fun e he => (hentry' e).trans (hout e (mem_inorder_branch.mpr (.inr (.inr he)))),
        hset.congr (congrArg (·.child i) hnode) fun e _ => hentry' e⟩
    · obtain ⟨p, hp⟩ := h.hung d.flip
      refine ⟨p, ?_⟩
      rw [Function.update_of_ne Side.ne_flip.symm]
      refine hp.congr ?_ fun e he => (hentry' e).trans (he₁ e ?_)
      · rw [hnode, ← hg₁, setChild_node_flip]
      · have hback := hap.flip d.flip e he
        rwa [Side.flip_flip] at hback
  · intro i
    have hhook : (g.link d a).hook i = (g₁.setHook d (.elm a)).hook i := by
      rw [hlink]
      cases i <;> rfl
    rw [hhook]
    obtain rfl | rfl : i = d ∨ i = d.flip := by
      cases i <;> cases d <;> simp
    · rw [setHook_hook, Function.update_self]
      rfl
    · rw [setHook_hook_flip, Function.update_of_ne Side.ne_flip.symm, ← hg₁, setChild_hook]
      exact h.hook d.flip
  · rw [whole_update]
    exact h.nodup

theorem Mid.link_entry (h : g.Mid t K) (he : e ∉ whole K t) :
    (g.link d a).tree.entry e = g.tree.entry e := by
  have hset : (g.setChild d (spotOf (K d)) (some a)).tree.entry e = g.tree.entry e :=
    setChild_entry_of_ne (ne_spotOf fun hk => he (h.mem_whole hk))
  rw [Splaying.link, h.hook]
  cases d <;> exact hset

omit [DecidableEq α] in
theorem notMem_whole (he : e ∉ whole K (branch d a (branch d b x y) z)) : e ≠ a ∧ e ≠ b := by
  constructor
  · rintro rfl
    exact he (by simp [whole, mem_inorder_branch])
  · rintro rfl
    exact he (by simp [whole, mem_inorder_branch])

theorem rotate_entry (ha : e ≠ a) (hb : e ≠ b) : (s.rotate d a b).entry e = s.entry e :=
  (Splay.setChild_entry_of_ne hb).trans (Splay.setChild_entry_of_ne ha)

/-- A rotation at the root. -/
theorem Mid.rotate (h : g.Mid (branch d a (branch d b x y) z) K) :
    Mid { g with tree := g.tree.rotate d a b } (branch d b x (branch d a y z)) K := by
  have hap := h.apart
  obtain ⟨hab, haz, hnodup, -, hdisj⟩ := nodup_inorder_branch.mp hap.nodup
  obtain ⟨hbx, hby, -, -, -⟩ := nodup_inorder_branch.mp hnodup
  simp only [mem_inorder_branch, not_or] at hab
  obtain ⟨hne, hax, hay⟩ := hab
  have hbz : b ∉ inorder z := fun hb => hdisj (mem_inorder_branch.mpr (.inl rfl)) hb
  obtain ⟨-, hz, hsb, hsz⟩ := Splay.stored_branch.mp h.stored
  obtain ⟨hx, hy, hsx, hsy⟩ := Splay.stored_branch.mp hsb
  obtain ⟨s₁, hs₁⟩ : ∃ s₁, g.tree.setChild d a (g.tree.child d.flip b) = s₁ := ⟨_, rfl⟩
  obtain ⟨s₂, hs₂⟩ : ∃ s₂, s₁.setChild d.flip b (some a) = s₂ := ⟨_, rfl⟩
  have he₁ : ∀ e, e ≠ a → s₁.entry e = g.tree.entry e := fun e he => hs₁ ▸ Splay.setChild_entry_of_ne he
  have he₂ : ∀ e, e ≠ b → s₂.entry e = s₁.entry e := fun e he => hs₂ ▸ Splay.setChild_entry_of_ne he
  have hrotate : g.tree.rotate d a b = { s₂ with root := some b } := by
    rw [Splay.rotate, hs₁, hs₂]
  have hentry : ∀ e, (g.tree.rotate d a b).entry e = s₂.entry e := fun e => by rw [hrotate]
  have hrest : ∀ e, e ≠ a → e ≠ b → (g.tree.rotate d a b).entry e = g.tree.entry e := fun e ha hb =>
    (hentry e).trans ((he₂ e hb).trans (he₁ e ha))
  -- the two elements
  have ha : (g.tree.rotate d a b).child d a = top y := by
    rw [Splay.child_of_entry ((hentry a).trans (he₂ a hne)), ← hs₁, Splay.child_setChild]
    exact hy
  have ha' : (g.tree.rotate d a b).child d.flip a = top z := by
    rw [Splay.child_of_entry ((hentry a).trans (he₂ a hne)), ← hs₁, Splay.child_flip_setChild]
    exact hz
  have hb : (g.tree.rotate d a b).child d b = top x := by
    rw [Splay.child_of_entry (hentry b), ← hs₂, Splay.child_setChild_flip,
      Splay.child_of_entry (he₁ b (Ne.symm hne))]
    exact hx
  have hb' : (g.tree.rotate d a b).child d.flip b = some a := by
    rw [Splay.child_of_entry (hentry b), ← hs₂, Splay.child_setChild]
  constructor
  · rw [top_branch]
    show (g.tree.rotate d a b).root = _
    rw [hrotate]
  · refine Splay.stored_branch.mpr ⟨hb, hb'.trans top_branch.symm, ?_, Splay.stored_branch.mpr ⟨ha, ha', ?_, ?_⟩⟩
    · exact hsx.congr fun e he => hrest e (fun heq => hax (heq ▸ he)) fun heq => hbx (heq ▸ he)
    · exact hsy.congr fun e he => hrest e (fun heq => hay (heq ▸ he)) fun heq => hby (heq ▸ he)
    · exact hsz.congr fun e he => hrest e (fun heq => haz (heq ▸ he)) fun heq => hbz (heq ▸ he)
  · intro i
    obtain ⟨p, hp⟩ := h.hung i
    refine ⟨p, hp.congr rfl fun e he => hrest e ?_ ?_⟩
    · exact fun heq => hap.tree i e he (heq ▸ mem_inorder_branch.mpr (.inl rfl))
    · exact fun heq => hap.tree i e he (heq ▸ mem_inorder_branch.mpr
        (.inr (.inl (mem_inorder_branch.mpr (.inl rfl)))))
  · exact h.hook
  · have hnodup := h.nodup
    have hflip : inorder (branch d b x (branch d a y z)) = inorder (branch d a (branch d b x y) z) :=
      inorder_rotate.symm
    rw [whole, hflip]
    exact hnodup

/-- The end of `SPLAY`. -/
theorem Mid.assemble {l r : BinaryTree α} (h : g.Mid (.node a l r) K) :
    (g.assemble a).Holds (.node a (plug l (K .right)) (plug r (K .left))) ∧
      ∀ e, e ∉ whole K (.node a l r) → (g.assemble a).entry e = g.tree.entry e := by
  have hap := h.apart
  obtain ⟨hl, hr, hsl, hsr⟩ := h.stored
  obtain ⟨p, hp⟩ := h.hung .right
  obtain ⟨q, hq⟩ := h.hung .left
  have ha : ∀ i, a ∉ spine (K i) := fun i ha => hap.tree i a ha (by simp)
  obtain ⟨g₁, hg₁⟩ : ∃ g₁, g.setChild .right (spotOf (K .right)) (top l) = g₁ := ⟨_, rfl⟩
  obtain ⟨g₂, hg₂⟩ : ∃ g₂, g₁.setChild .left (spotOf (K .left)) (top r) = g₂ := ⟨_, rfl⟩
  have he₁ : ∀ e, e ∉ spine (K .right) → g₁.tree.entry e = g.tree.entry e := fun e he =>
    hg₁ ▸ setChild_entry_of_ne (ne_spotOf he)
  have he₂ : ∀ e, e ∉ spine (K .left) → g₂.tree.entry e = g₁.tree.entry e := fun e he =>
    hg₂ ▸ setChild_entry_of_ne (ne_spotOf he)
  have hright₁ : g₁.Hung .right (top l) (K .right) := hg₁ ▸ hp.set (hap.spine .right)
  have hright₂ : g₂.Hung .right (top l) (K .right) :=
    hright₁.congr (hg₂ ▸ setChild_node_flip) fun e he => he₂ e (hap.flip .right e he)
  have hleft₁ : g₁.Hung .left q (K .left) :=
    hq.congr (hg₁ ▸ setChild_node_flip) fun e he => he₁ e (hap.flip .left e he)
  have hleft₂ : g₂.Hung .left (top r) (K .left) := hg₂ ▸ hleft₁.set (hap.spine .left)
  have hkeep : ∀ e ∈ inorder (.node a l r), g₂.tree.entry e = g.tree.entry e := fun e he =>
    (he₂ e fun hk => hap.tree .left e hk he).trans (he₁ e fun hk => hap.tree .right e hk he)
  have hsl₂ : g₂.tree.Stored l := hsl.congr fun e he => hkeep e (by simp [he])
  have hsr₂ : g₂.tree.Stored r := hsr.congr fun e he => hkeep e (by simp [he])
  obtain ⟨hnode, hL⟩ := hright₂.stored hsl₂
  obtain ⟨hnode', hR⟩ := hleft₂.stored hsr₂
  have hchild₁ : g₁.tree.child .right a = top r :=
    (Splay.child_of_entry (he₁ a (ha .right))).trans hr
  have hassemble : g.assemble a = (g₂.tree.setChild .left a (top (plug l (K .right)))).setChild .right a
      (top (plug r (K .left))) := by
    have hright : g.left = spotOf (K .right) := h.hook .right
    have hleft : g₁.right = spotOf (K .left) := by
      rw [← hg₁]
      exact setChild_hook.trans (h.hook .left)
    rw [Splaying.assemble, hl, hright, hg₁]
    rw [hleft, hchild₁, hg₂, ← hnode, ← hnode']
    rfl
  -- the elements of the two trees are where they were
  have hvalues : inorder (.node a (plug l (K .right)) (plug r (K .left))) = whole K (.node a l r) := by
    simp [inorder_plug, whole, before_eq_nil (h.sides .left), after_eq_nil (h.sides .right)]
  have hnodup : (inorder (.node a (plug l (K .right)) (plug r (K .left)))).Nodup := by
    rw [hvalues]
    exact h.nodup
  obtain ⟨haL, haR, -⟩ := (nodup_inorder_branch (d := .left)).mp hnodup
  have hentry : ∀ e, e ≠ a → (g.assemble a).entry e = g₂.tree.entry e := fun e he => by
    rw [hassemble, Splay.setChild_entry_of_ne he, Splay.setChild_entry_of_ne he]
  refine ⟨⟨?_, ⟨?_, ?_, hL.congr fun e he => hentry e ?_, hR.congr fun e he => hentry e ?_⟩, hnodup⟩, ?_⟩
  · have hroot : g.tree.root = some a := h.root
    rw [hassemble]
    show g₂.tree.root = some a
    rw [← hg₂, ← hg₁, setChild_root, setChild_root, hroot]
  · rw [hassemble]
    exact (Splay.child_setChild_flip (d := .left)).trans Splay.child_setChild
  · rw [hassemble]
    exact Splay.child_setChild
  · exact fun heq => haL (heq ▸ he)
  · exact fun heq => haR (heq ▸ he)
  · intro e he
    rw [hentry e fun heq => he (heq ▸ by simp [whole]), he₂ e fun hk => he (h.mem_whole hk),
      he₁ e fun hk => he (h.mem_whole hk)]

end Splaying

end

end MuslBsd.Trees
