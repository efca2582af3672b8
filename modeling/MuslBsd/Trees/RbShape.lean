import MuslBsd.Trees.Rb

/-! Red-black trees in memory, and what the rotations do to them. -/
namespace MuslBsd.Trees
open MuslBsd.Support BinaryTree

variable {α : Type*}

abbrev RbTree (α : Type*) : Type _ := BinaryTree (Color × α)

abbrev RbCrumb (α : Type*) : Type _ := Crumb (Color × α)

/-- The elements of a tree from left to right. -/
def elements (t : RbTree α) : List α := (inorder t).map Prod.snd

/-- The elements around a position. -/
def elementsAround (k : List (RbCrumb α)) : List α := (before k ++ after k).map Prod.snd

/-- The pointer to a tree. -/
def addr : RbTree α → Option α
  | .nil => none
  | .node (_, a) _ _ => some a

/-- The pointer to the node above a position. -/
def above (k : List (RbCrumb α)) : Option α := k.head?.map (·.value.2)

/-- The entry with the child `p` on the side `d` and `q` on the other. -/
def links (d : Side) (p q parent : Option α) (c : Color) : RbEntry α :=
  match d with
  | .left => ⟨p, q, parent, c⟩
  | .right => ⟨q, p, parent, c⟩

namespace Rb

/-- The tree `t` is in memory, below `q`. -/
def Stored (s : Rb α) : Option α → RbTree α → Prop
  | _, .nil => True
  | q, .node (c, a) l r =>
    s.entry a = ⟨addr l, addr r, q, c⟩ ∧ Stored s (some a) l ∧ Stored s (some a) r

/-- What is around a position is in memory, with `p` as the pointer to the tree there. -/
def Around (s : Rb α) : Option α → List (RbCrumb α) → Prop
  | p, [] => s.root = p
  | p, ⟨d, (c, a), u⟩ :: k =>
    s.entry a = links d p (addr u) (above k) c ∧ Stored s (some a) u ∧ Around s (some a) k

/-- The head holds the tree `t`. -/
structure Holds (s : Rb α) (t : RbTree α) : Prop where
  root : s.root = addr t
  stored : s.Stored none t
  nodup : (elements t).Nodup

end Rb

/-- The head holds the elements of `l`, in increasing order, in a balanced tree. -/
structure Rb.Sorted (cmp : α → α → ℤ) (s : Rb α) (l : List α) : Prop where
  tree : ∃ t n, s.Holds t ∧ RedBlack t .black n ∧ elements t = l
  increasing : Increasing cmp l

/-- No loop takes more rounds in a tree of `n` elements. -/
def rounds (n : ℕ) : ℕ := 2 * Nat.log 2 (n + 1)

theorem rounds_mono {n m : ℕ} (h : n ≤ m) : rounds n ≤ rounds m :=
  Nat.mul_le_mul_left 2 (Nat.log_mono_right (Nat.add_le_add_right h 1))

variable {s s' : Rb α} {t u x y z : RbTree α} {k : List (RbCrumb α)} {a b e old : α} {c c' : Color}
  {d : Side} {p q new : Option α}

@[simp] theorem elements_nil : elements (.nil : RbTree α) = [] := rfl

theorem height_le_rounds {n : ℕ} (h : RedBlack t .black n) : t.height ≤ rounds (elements t).length := by
  have hheight := h.height_le_log
  rw [numNodes_eq_length] at hheight
  rw [elements, List.length_map]
  exact hheight

theorem mem_branch : e ∈ elements (branch d (c, a) t u) ↔ e = a ∨ e ∈ elements t ∨ e ∈ elements u := by
  cases d with
  | left => simp [elements, branch, or_left_comm]
  | right =>
    simp only [elements, branch, inorder, List.map_append, List.map_cons, List.mem_append, List.mem_cons]
    tauto

theorem nodup_branch : (elements (branch d (c, a) t u)).Nodup ↔
    a ∉ elements t ∧ a ∉ elements u ∧ (elements t).Nodup ∧ (elements u).Nodup ∧
      (elements t).Disjoint (elements u) := by
  cases d with
  | left =>
    simp only [elements, branch, inorder, List.map_append, List.map_cons, List.nodup_append',
      List.nodup_cons, List.disjoint_cons_right]
    tauto
  | right =>
    have hcomm : (elements t).Disjoint (elements u) ↔ (elements u).Disjoint (elements t) :=
      List.disjoint_comm
    rw [hcomm]
    simp only [elements, branch, inorder, List.map_append, List.map_cons, List.nodup_append',
      List.nodup_cons, List.disjoint_cons_right]
    tauto

theorem mem_plug : e ∈ elements (plug t k) ↔ e ∈ elements t ∨ e ∈ elementsAround k := by
  simp only [elements, elementsAround, inorder_plug, List.map_append, List.mem_append]
  tauto

theorem nodup_plug : (elements (plug t k)).Nodup ↔
    (elements t).Nodup ∧ (elementsAround k).Nodup ∧ (elements t).Disjoint (elementsAround k) := by
  have hperm : (elements (plug t k)).Perm (elements t ++ elementsAround k) := by
    simp only [elements, elementsAround, inorder_plug, List.map_append, List.append_assoc]
    exact List.perm_append_comm_assoc ..
  rw [hperm.nodup_iff, List.nodup_append']

/-- Where an element is in the tree. -/
theorem exists_position (ha : a ∈ elements t) : ∃ c l r k, t = plug (branch .left (c, a) l r) k := by
  obtain ⟨⟨c, b⟩, hv, rfl⟩ := List.mem_map.mp ha
  obtain ⟨l, r, k, hk⟩ := exists_plug_of_mem hv
  exact ⟨c, l, r, k, hk⟩

theorem mem_around_cons : e ∈ elementsAround (⟨d, (c, a), u⟩ :: k) ↔
    e = a ∨ e ∈ elements u ∨ e ∈ elementsAround k := by
  cases d with
  | left =>
    simp only [elements, elementsAround, before, after, Crumb.before, Crumb.after, List.map_append,
      List.map_cons, List.mem_append, List.mem_cons, List.append_nil]
    tauto
  | right =>
    simp only [elements, elementsAround, before, after, Crumb.before, Crumb.after, List.map_append,
      List.map_cons, List.map_nil, List.mem_append, List.mem_singleton, List.nil_append]
    tauto

theorem elements_plug :
    elements (plug t k) = (before k).map Prod.snd ++ elements t ++ (after k).map Prod.snd := by
  simp only [elements, inorder_plug, List.map_append]

theorem elements_plug_congr (h : elements t = elements u) : elements (plug t k) = elements (plug u k) := by
  rw [elements_plug, elements_plug, h]

/-- The colours do not matter to the order of the elements. -/
theorem elements_branch : elements (branch d (c, a) t u) =
    if d = .left then elements t ++ a :: elements u else elements u ++ a :: elements t := by
  cases d <;> simp [elements, branch]

theorem elements_branch_congr (ht : elements t = elements x) (hu : elements u = elements y) :
    elements (branch d (c, a) t u) = elements (branch d (c', a) x y) := by
  rw [elements_branch, elements_branch, ht, hu]

theorem elements_rotate {c₁ c₂ : Color} : elements (branch d (c', b) (branch d (c, a) x y) z) =
    elements (branch d (c₁, a) x (branch d (c₂, b) y z)) := by
  cases d <;> simp [elements_branch]

theorem addr_branch : addr (branch d (c, a) t u) = some a := by
  cases d <;> rfl

theorem addr_mem (h : addr t = some a) : a ∈ elements t := by
  cases t with
  | nil => cases h
  | node v l r =>
    obtain ⟨c, b⟩ := v
    cases h
    simp [elements]

theorem nodup_around_cons : (elementsAround (⟨d, (c, a), u⟩ :: k)).Nodup ↔
    (a ∉ elements u ∧ (elements u).Nodup) ∧ (elementsAround k).Nodup ∧
      a ∉ elementsAround k ∧ (elements u).Disjoint (elementsAround k) := by
  have hfill : elementsAround (⟨d, (c, a), u⟩ :: k) = elements (plug (branch d (c, a) .nil u) k) := by
    simp only [elementsAround, elements, inorder_plug, ← Crumb.fill.eq_def ⟨d, (c, a), u⟩, inorder_fill,
      inorder, List.append_nil, before, after, List.append_assoc]
  rw [hfill, nodup_plug, nodup_branch]
  have hdisj : (elements (branch d (c, a) .nil u)).Disjoint (elementsAround k) ↔
      a ∉ elementsAround k ∧ (elements u).Disjoint (elementsAround k) := by
    simp only [List.disjoint_left, mem_branch, elements_nil, List.not_mem_nil, false_or, or_imp,
      forall_and, forall_eq]
  rw [hdisj]
  simp

namespace Rb

section

variable {r : Option α}

theorem child_of_entry (h : s.entry a = links d p q r c) : s.child d a = p := by
  cases d <;> simp [child, h, links]

theorem child_flip_of_entry (h : s.entry a = links d p q r c) : s.child d.flip a = q := by
  cases d <;> simp [child, h, links]

theorem parent_of_entry (h : s.entry a = links d p q r c) : s.parent a = r := by
  cases d <;> simp [parent, h, links]

theorem color_of_entry (h : s.entry a = links d p q r c) : s.color a = c := by
  cases d <;> simp [color, h, links]

end

theorem stored_branch : s.Stored q (branch d (c, a) t u) ↔
    s.entry a = links d (addr t) (addr u) q c ∧ s.Stored (some a) t ∧ s.Stored (some a) u := by
  cases d with
  | left => rfl
  | right =>
    show _ ∧ _ ↔ _
    rw [and_comm (a := s.Stored (some a) t)]
    rfl

theorem Stored.congr (h : s.Stored q t) (hs : ∀ e ∈ elements t, s'.entry e = s.entry e) :
    s'.Stored q t := by
  induction t generalizing q with
  | nil => trivial
  | node v l r hl hr =>
    obtain ⟨c, a⟩ := v
    obtain ⟨ha, hsl, hsr⟩ := h
    have hroot : s'.entry a = s.entry a := hs a (by simp [elements])
    refine ⟨hroot.trans ha, hl hsl fun e he => hs e ?_, hr hsr fun e he => hs e ?_⟩
    · exact (mem_branch (d := .left)).mpr (.inr (.inl he))
    · exact (mem_branch (d := .left)).mpr (.inr (.inr he))

theorem Around.congr (h : s.Around p k) (hroot : s'.root = s.root)
    (hs : ∀ e ∈ elementsAround k, s'.entry e = s.entry e) : s'.Around p k := by
  induction k generalizing p with
  | nil => exact hroot.trans h
  | cons cr k ih =>
    obtain ⟨d, ⟨c, a⟩, u⟩ := cr
    obtain ⟨ha, hu, hk⟩ := h
    refine ⟨(hs a (mem_around_cons.mpr (.inl rfl))).trans ha, hu.congr fun e he => hs e ?_,
      ih hk fun e he => hs e ?_⟩
    · exact mem_around_cons.mpr (.inr (.inl he))
    · exact mem_around_cons.mpr (.inr (.inr he))

/-- A tree is in memory when its parts at a position are. -/
theorem stored_plug : s.root = addr (plug t k) ∧ s.Stored none (plug t k) ↔
    s.Stored (above k) t ∧ s.Around (addr t) k := by
  induction k generalizing t with
  | nil => exact and_comm
  | cons cr k ih =>
    obtain ⟨d, ⟨c, a⟩, u⟩ := cr
    rw [plug, ih, Crumb.fill, stored_branch, addr_branch]
    show (_ ∧ _ ∧ _) ∧ _ ↔ _ ∧ _ ∧ _ ∧ _
    tauto

theorem holds_plug : s.Holds (plug t k) ↔
    s.Stored (above k) t ∧ s.Around (addr t) k ∧ (elements (plug t k)).Nodup := by
  constructor
  · intro h
    obtain ⟨ht, hk⟩ := stored_plug.mp ⟨h.root, h.stored⟩
    exact ⟨ht, hk, h.nodup⟩
  · rintro ⟨ht, hk, hnodup⟩
    obtain ⟨hroot, hstored⟩ := stored_plug.mpr ⟨ht, hk⟩
    exact ⟨hroot, hstored, hnodup⟩

/-- What is read at a node of the tree. -/
theorem Holds.entry (h : s.Holds (plug (branch d (c, a) x y) k)) :
    s.entry a = links d (addr x) (addr y) (above k) c :=
  (stored_branch.mp (holds_plug.mp h).1).1

theorem Holds.parent (h : s.Holds (plug t k)) (ht : addr t = some a) : s.parent a = above k := by
  obtain ⟨hstored, -, -⟩ := holds_plug.mp h
  cases t with
  | nil => cases ht
  | node v l r =>
    cases ht
    exact parent_of_entry (d := .left) hstored.1

theorem Holds.addr_ne (h : s.Holds (plug (branch d (c, a) t u) k)) (ht : addr t = some e) :
    addr u ≠ some e := by
  have hdisj := (nodup_branch.mp (nodup_plug.mp h.nodup).1).2.2.2.2
  exact fun hu => hdisj (addr_mem ht) (addr_mem hu)

theorem Holds.exists_root (h : s.Holds t) (he : e ∈ elements t) : ∃ r, s.root = some r := by
  cases t with
  | nil => cases he
  | node v l r => exact ⟨v.2, h.root⟩

theorem Stored.isBlack {n : ℕ} (h : s.Stored q t) (ht : RedBlack t c n) :
    s.isBlack (addr t) = decide (c = .black) := by
  cases ht with
  | nil => rfl
  | red hl hr =>
    have hroot := color_of_entry (d := .left) h.1
    show decide (s.color _ = .black) = _
    rw [hroot]
  | black hl hr =>
    have hroot := color_of_entry (d := .left) h.1
    show decide (s.color _ = .black) = _
    rw [hroot]

/-- The nodes `a` and `b` and the four parts around a rotation have nothing in common. -/
structure Pivot (a b : α) (x y z : RbTree α) (k : List (RbCrumb α)) : Prop where
  ne : a ≠ b
  ax : a ∉ elements x
  ay : a ∉ elements y
  az : a ∉ elements z
  ak : a ∉ elementsAround k
  bx : b ∉ elements x
  bY : b ∉ elements y
  bz : b ∉ elements z
  bk : b ∉ elementsAround k
  nodup : (elements y).Nodup
  around : (elementsAround k).Nodup
  xy : ∀ e ∈ elements x, e ∉ elements y
  yz : ∀ e ∈ elements z, e ∉ elements y
  xk : ∀ e ∈ elements x, e ∉ elementsAround k
  yk : ∀ e ∈ elements y, e ∉ elementsAround k
  zk : ∀ e ∈ elements z, e ∉ elementsAround k

theorem pivot_of_nodup (h : (elements (plug (branch d (c, a) x (branch d (c', b) y z)) k)).Nodup) :
    Pivot a b x y z k := by
  obtain ⟨hnode, haround, hdisj⟩ := nodup_plug.mp h
  obtain ⟨hax, hayz, -, hnode', hxyz⟩ := nodup_branch.mp hnode
  obtain ⟨hby, hbz, hnodupy, -, hyz⟩ := nodup_branch.mp hnode'
  simp only [mem_branch, not_or] at hayz
  simp only [List.disjoint_right, mem_branch, forall_eq_or_imp] at hxyz
  simp only [List.disjoint_left, mem_branch, or_imp, forall_and, forall_eq] at hdisj
  exact
    { ne := hayz.1, ax := hax, ay := hayz.2.1, az := hayz.2.2, ak := hdisj.1, bx := hxyz.1, bY := hby
      bz := hbz, bk := hdisj.2.2.1, nodup := hnodupy, around := haround
      xy := fun e hx hy => hxyz.2 e (.inl hy) hx, yz := fun e hz hy => hyz hy hz, xk := hdisj.2.1
      yk := hdisj.2.2.2.1, zk := hdisj.2.2.2.2 }

theorem ne_of_notMem_elements (h : e ∉ elements t) : ∀ b, addr t = some b → e ≠ b :=
  fun _ hb heq => h (heq ▸ addr_mem hb)

theorem ne_of_notMem_around (h : e ∉ elementsAround k) : ∀ b, above k = some b → e ≠ b := by
  intro b hb heq
  cases k with
  | nil => cases hb
  | cons cr k =>
    cases hb
    exact h (heq ▸ mem_around_cons.mpr (.inl rfl))

/-! ### Writes -/

section

variable [DecidableEq α] {f : RbEntry α}

@[simp] theorem store_root : (s.store a f).root = s.root := rfl

@[simp] theorem store_entry : (s.store a f).entry a = f := Function.update_self ..

theorem store_entry_of_ne (h : e ≠ a) : (s.store a f).entry e = s.entry e :=
  Function.update_of_ne h ..

@[simp] theorem setChild_root : (s.setChild d a p).root = s.root := rfl

@[simp] theorem setParent_root : (s.setParent a p).root = s.root := rfl

@[simp] theorem setColor_root : (s.setColor a c).root = s.root := rfl

theorem setChild_entry_of_ne (h : e ≠ a) : (s.setChild d a p).entry e = s.entry e :=
  store_entry_of_ne h

theorem setParent_entry_of_ne (h : e ≠ a) : (s.setParent a p).entry e = s.entry e :=
  store_entry_of_ne h

theorem setColor_entry_of_ne (h : e ≠ a) : (s.setColor a c).entry e = s.entry e :=
  store_entry_of_ne h

theorem setParent_entry {r : Option α} (h : s.entry a = links d p q r c) :
    (s.setParent a new).entry a = links d p q new c := by
  cases d <;> simp [setParent, h, links]

theorem setColor_entry (h : s.entry a = links d p q new c) :
    (s.setColor a c').entry a = links d p q new c' := by
  cases d <;> simp [setColor, h, links]

theorem setChild_entry {r : Option α} (h : s.entry a = links d p q r c) :
    (s.setChild d a new).entry a = links d new q r c := by
  cases d <;> simp [setChild, h, links]

theorem setChild_flip_entry {r : Option α} (h : s.entry a = links d p q r c) :
    (s.setChild d.flip a new).entry a = links d p new r c := by
  cases d <;> simp [setChild, h, links]

@[simp] theorem adopt_root : (s.adopt p q).root = s.root := by
  cases p <;> rfl

theorem adopt_entry_of_ne (h : ∀ b, p = some b → e ≠ b) : (s.adopt p q).entry e = s.entry e := by
  cases p with
  | none => rfl
  | some b => exact setParent_entry_of_ne (h b rfl)

theorem replace_entry_of_ne (h : ∀ b, p = some b → e ≠ b) :
    (s.replace p old new).entry e = s.entry e := by
  cases p with
  | none => rfl
  | some b =>
    unfold replace
    dsimp only
    split <;> exact setChild_entry_of_ne (h b rfl)

/-- A subtree that is handed to another parent. -/
theorem Stored.adopt (h : s.Stored p t) (hnodup : (elements t).Nodup) :
    (s.adopt (addr t) q).Stored q t := by
  cases t with
  | nil => trivial
  | node v l r =>
    obtain ⟨c, a⟩ := v
    obtain ⟨ha, hl, hr⟩ := h
    obtain ⟨hal, har, -⟩ := (nodup_branch (d := .left)).mp hnodup
    have hroot : (s.setParent a q).entry a = links .left (addr l) (addr r) q c :=
      setParent_entry (d := .left) ha
    refine ⟨hroot, hl.congr fun e he => setParent_entry_of_ne ?_,
      hr.congr fun e he => setParent_entry_of_ne ?_⟩
    · exact fun heq => hal (heq ▸ he)
    · exact fun heq => har (heq ▸ he)

theorem replace_eq {r : Option α} (h : s.entry a = links d (some old) q r c) (hq : q ≠ some old) :
    s.replace (some a) old new = s.setChild d a new := by
  cases d with
  | left => exact if_pos (child_of_entry h)
  | right =>
    have hleft : s.child .left a = q := child_flip_of_entry (d := .right) h
    exact if_neg (hleft ▸ hq)

/-- On which side a child is. -/
theorem side_of_entry {r : Option α} (h : s.entry a = links d p q r c) (hq : q ≠ p) :
    (if s.child .left a = p then Side.left else .right) = d := by
  cases d with
  | left => exact if_pos (child_of_entry h)
  | right =>
    have hleft : s.child .left a = q := child_flip_of_entry (d := .right) h
    exact if_neg (hleft ▸ hq)

/-- The pointer to a position is replaced. -/
theorem Around.replace (h : s.Around (some old) k) (hnodup : (elementsAround k).Nodup)
    (hold : old ∉ elementsAround k) : (s.replace (above k) old new).Around new k := by
  cases k with
  | nil => rfl
  | cons cr k =>
    obtain ⟨d, ⟨c, a⟩, u⟩ := cr
    obtain ⟨ha, hu, hk⟩ := h
    obtain ⟨⟨hau, -⟩, -, hak, -⟩ := nodup_around_cons.mp hnodup
    have hne : addr u ≠ some old := fun heq =>
      hold (mem_around_cons.mpr (.inr (.inl (addr_mem heq))))
    show (s.replace (some a) old new).Around new _
    rw [replace_eq ha hne]
    refine ⟨setChild_entry ha, hu.congr fun e he => setChild_entry_of_ne ?_,
      hk.congr rfl fun e he => setChild_entry_of_ne ?_⟩
    · exact fun heq => hau (heq ▸ he)
    · exact fun heq => hak (heq ▸ he)

/-- A node of another colour. -/
theorem Holds.setColor (h : s.Holds (plug (branch d (c, a) x y) k)) :
    (s.setColor a c').Holds (plug (branch d (c', a) x y) k) := by
  obtain ⟨ht, hk, hnodup⟩ := holds_plug.mp h
  obtain ⟨ha, hx, hy⟩ := stored_branch.mp ht
  obtain ⟨hnode, -, hdisj⟩ := nodup_plug.mp hnodup
  obtain ⟨hax, hay, -⟩ := nodup_branch.mp hnode
  have hak : a ∉ elementsAround k := hdisj (mem_branch.mpr (.inl rfl))
  rw [addr_branch] at hk
  refine holds_plug.mpr ⟨stored_branch.mpr ⟨setColor_entry ha, ?_, ?_⟩, ?_, ?_⟩
  · exact hx.congr fun e he => setColor_entry_of_ne fun heq => hax (heq ▸ he)
  · exact hy.congr fun e he => setColor_entry_of_ne fun heq => hay (heq ▸ he)
  · rw [addr_branch]
    exact hk.congr rfl fun e he => setColor_entry_of_ne fun heq => hak (heq ▸ he)
  · have hsame : elements (plug (branch d (c', a) x y) k) = elements (plug (branch d (c, a) x y) k) :=
      elements_plug_congr (elements_branch_congr rfl rfl)
    rw [hsame]
    exact hnodup

/-- The root is made black. -/
theorem Holds.blacken (h : s.Holds t) (hroot : s.root = some a) :
    (s.setColor a .black).Holds (blacken t) := by
  have haddr := h.root
  rw [hroot] at haddr
  cases t with
  | nil => cases haddr
  | node v l r =>
    obtain ⟨c, b⟩ := v
    cases haddr
    exact Holds.setColor (d := .left) (k := []) h

omit [DecidableEq α] in
theorem elements_blacken : elements (Support.blacken t) = elements t := by
  cases t with
  | nil => rfl
  | node v l r =>
    obtain ⟨c, a⟩ := v
    simp [elements, Support.blacken]

/-- What a rotation does. -/
theorem Holds.rotate (h : s.Holds (plug (branch d (c, a) x (branch d (c', b) y z)) k)) :
    ∃ s', s.rotate d a = some s' ∧ s'.Holds (plug (branch d (c', b) (branch d (c, a) x y) z) k) := by
  obtain ⟨ht, hk, hnodup⟩ := holds_plug.mp h
  obtain ⟨ha, hx, hyz⟩ := stored_branch.mp ht
  obtain ⟨hb, hy, hz⟩ := stored_branch.mp hyz
  have hp := pivot_of_nodup hnodup
  rw [addr_branch] at ha hk
  -- the states between the writes
  obtain ⟨s₁, hs₁⟩ : ∃ s₁, s.setChild d.flip a (addr y) = s₁ := ⟨_, rfl⟩
  obtain ⟨s₂, hs₂⟩ : ∃ s₂, s₁.adopt (addr y) (some a) = s₂ := ⟨_, rfl⟩
  obtain ⟨s₃, hs₃⟩ : ∃ s₃, s₂.setParent b (above k) = s₃ := ⟨_, rfl⟩
  obtain ⟨s₄, hs₄⟩ : ∃ s₄, s₃.replace (above k) a (some b) = s₄ := ⟨_, rfl⟩
  obtain ⟨s₅, hs₅⟩ : ∃ s₅, s₄.setChild d b (some a) = s₅ := ⟨_, rfl⟩
  obtain ⟨s₆, hs₆⟩ : ∃ s₆, s₅.setParent a (some b) = s₆ := ⟨_, rfl⟩
  have he₁ : ∀ e, e ≠ a → s₁.entry e = s.entry e := fun e he => hs₁ ▸ setChild_entry_of_ne he
  have he₂ : ∀ e, e ∉ elements y → s₂.entry e = s₁.entry e := fun e he =>
    hs₂ ▸ adopt_entry_of_ne (ne_of_notMem_elements he)
  have he₃ : ∀ e, e ≠ b → s₃.entry e = s₂.entry e := fun e he => hs₃ ▸ setParent_entry_of_ne he
  have he₄ : ∀ e, e ∉ elementsAround k → s₄.entry e = s₃.entry e := fun e he =>
    hs₄ ▸ replace_entry_of_ne (ne_of_notMem_around he)
  have he₅ : ∀ e, e ≠ b → s₅.entry e = s₄.entry e := fun e he => hs₅ ▸ setChild_entry_of_ne he
  have he₆ : ∀ e, e ≠ a → s₆.entry e = s₅.entry e := fun e he => hs₆ ▸ setParent_entry_of_ne he
  -- the two nodes
  have ha₁ : s₁.entry a = links d (addr x) (addr y) (above k) c := hs₁ ▸ setChild_flip_entry ha
  have ha₂ : s₂.entry a = links d (addr x) (addr y) (above k) c := (he₂ a hp.ay).trans ha₁
  have ha₃ : s₃.entry a = links d (addr x) (addr y) (above k) c := (he₃ a hp.ne).trans ha₂
  have ha₅ : s₅.entry a = links d (addr x) (addr y) (above k) c :=
    (he₅ a hp.ne).trans ((he₄ a hp.ak).trans ha₃)
  have ha₆ : s₆.entry a = links d (addr x) (addr y) (some b) c := hs₆ ▸ setParent_entry ha₅
  have hb₁ : s₁.entry b = links d (addr y) (addr z) (some a) c' := (he₁ b hp.ne.symm).trans hb
  have hb₃ : s₃.entry b = links d (addr y) (addr z) (above k) c' :=
    hs₃ ▸ setParent_entry ((he₂ b hp.bY).trans hb₁)
  have hb₅ : s₅.entry b = links d (some a) (addr z) (above k) c' :=
    hs₅ ▸ setChild_entry ((he₄ b hp.bk).trans hb₃)
  have hb₆ : s₆.entry b = links d (some a) (addr z) (above k) c' := (he₆ b hp.ne.symm).trans hb₅
  have hrotate : s.rotate d a = some s₆ := by
    simp only [Rb.rotate, child_flip_of_entry ha, child_of_entry hb, hs₁, child_of_entry hb₁, hs₂,
      parent_of_entry ha₂, hs₃, parent_of_entry ha₃, hs₄, hs₅, hs₆, Option.bind_eq_bind,
      Option.bind_some, Option.pure_def]
  -- the rest is where it was, but for the parent of the subtree that moves and the pointer to the
  -- position
  have hrest : ∀ e, e ≠ a → e ≠ b → e ∉ elements y → e ∉ elementsAround k → s₆.entry e = s.entry e :=
    fun e hea heb hey hek => by
      rw [he₆ e hea, he₅ e heb, he₄ e hek, he₃ e heb, he₂ e hey, he₁ e hea]
  have hx₆ : s₆.Stored (some a) x := hx.congr fun e he =>
    hrest e (fun heq => hp.ax (heq ▸ he)) (fun heq => hp.bx (heq ▸ he)) (hp.xy e he) (hp.xk e he)
  have hz₆ : s₆.Stored (some b) z := hz.congr fun e he =>
    hrest e (fun heq => hp.az (heq ▸ he)) (fun heq => hp.bz (heq ▸ he)) (hp.yz e he) (hp.zk e he)
  have hy₁ : s₁.Stored (some b) y := hy.congr fun e he => he₁ e fun heq => hp.ay (heq ▸ he)
  have hy₂ : s₂.Stored (some a) y := hs₂ ▸ hy₁.adopt hp.nodup
  have hy₆ : s₆.Stored (some a) y := hy₂.congr fun e he => by
    have hea : e ≠ a := fun heq => hp.ay (heq ▸ he)
    have heb : e ≠ b := fun heq => hp.bY (heq ▸ he)
    rw [he₆ e hea, he₅ e heb, he₄ e (hp.yk e he), he₃ e heb]
  have hroot₃ : s₃.root = s.root := by
    rw [← hs₃, ← hs₂, ← hs₁]
    simp
  have hk₃ : s₃.Around (some a) k := hk.congr hroot₃ fun e he => by
    have hea : e ≠ a := fun heq => hp.ak (heq ▸ he)
    have heb : e ≠ b := fun heq => hp.bk (heq ▸ he)
    rw [he₃ e heb, he₂ e fun hey => hp.yk e hey he, he₁ e hea]
  have hk₄ : s₄.Around (some b) k := hs₄ ▸ hk₃.replace hp.around hp.ak
  have hroot₆ : s₆.root = s₄.root := by
    rw [← hs₆, ← hs₅]
    rfl
  have hk₆ : s₆.Around (some b) k := hk₄.congr hroot₆ fun e he => by
    have hea : e ≠ a := fun heq => hp.ak (heq ▸ he)
    have heb : e ≠ b := fun heq => hp.bk (heq ▸ he)
    rw [he₆ e hea, he₅ e heb]
  refine ⟨s₆, hrotate, holds_plug.mpr ⟨?_, by rwa [addr_branch], ?_⟩⟩
  · refine stored_branch.mpr ⟨?_, stored_branch.mpr ⟨ha₆, hx₆, hy₆⟩, hz₆⟩
    rw [addr_branch]
    exact hb₆
  · have hsame : elements (plug (branch d (c', b) (branch d (c, a) x y) z) k) =
        elements (plug (branch d (c, a) x (branch d (c', b) y z)) k) :=
      elements_plug_congr elements_rotate
    rw [hsame]
    exact hnodup

theorem Holds.rotate_flip (h : s.Holds (plug (branch d (c, a) (branch d (c', b) x y) z) k)) :
    ∃ s', s.rotate d.flip a = some s' ∧ s'.Holds (plug (branch d (c', b) x (branch d (c, a) y z)) k) := by
  have hflip : branch d (c, a) (branch d (c', b) x y) z =
      branch d.flip (c, a) z (branch d.flip (c', b) y x) := by
    rw [branch_flip, branch_flip]
  rw [hflip] at h
  obtain ⟨s', hs', h'⟩ := h.rotate
  rw [branch_flip, branch_flip] at h'
  exact ⟨s', hs', h'⟩

end

end Rb

end MuslBsd.Trees
