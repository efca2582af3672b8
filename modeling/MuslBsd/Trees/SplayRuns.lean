import MuslBsd.Support.Sessions
import MuslBsd.Trees.SplayShape

/-! Whole runs on a splay tree of `tree.h`: it is the ordered set of its elements. -/
namespace MuslBsd.Trees
open MuslBsd.Support BinaryTree

variable {α : Type*} [DecidableEq α] {s s' : Splay α} {g : Splaying α} {t u x y : BinaryTree α}
  {K : Side → List (Crumb α)} {a b e : α} {d : Side} {f : α → ℤ} {cmp : α → α → ℤ} {k : ℕ} {l l' m : List α}

namespace Splaying

/-- A round of the loop of `SPLAY` ends it, or goes on further down with the same elements. -/
theorem turn_holds (h : g.Mid (branch d a x y) K) (hK : ∀ i, Guided f (K i)) (ha : goes d (f a) = true) :
    ∃ g' t K' more, g.turn d f a = some (g', more) ∧ g'.Mid t K' ∧ (∀ i, Guided f (K' i)) ∧
      whole K' t = whole K (branch d a x y) ∧
      (∀ e, e ∉ whole K (branch d a x y) → g'.tree.entry e = g.tree.entry e) ∧
      if more then (∃ b, top t = some b) ∧ t.height ≤ x.height else Settled f t := by
  obtain ⟨hx, -, -, -⟩ := Splay.stored_branch.mp h.stored
  cases x with
  | nil =>
    refine ⟨g, _, K, false, ?_, h, hK, rfl, fun e _ => rfl, settled_of_toward ha⟩
    rw [turn, hx]
    rfl
  | node b l r =>
    obtain ⟨x, z, hxz⟩ := exists_branch d b l r
    rw [hxz] at h hx ⊢
    rw [top_branch] at hx
    have hturn : g.turn d f a = if goes d (f b) then
        if (g.tree.rotate d a b).child d b = none then some ({ g with tree := g.tree.rotate d a b }, false)
        else some ((Splaying.mk (g.tree.rotate d a b) g.node g.left g.right).link d b, true)
        else some (g.link d a, true) := by
      rw [turn, hx]
    cases hb : goes d (f b) with
    | false =>
      refine ⟨_, _, _, true, ?_, h.link, guided_update hK (goes_iff.mp ha) d, whole_update d,
        fun e he => h.link_entry he, ⟨b, top_branch⟩, le_rfl⟩
      rw [hturn, hb]
      rfl
    | true =>
      have hrot := h.rotate
      obtain ⟨hxb, -, -, -⟩ := Splay.stored_branch.mp hrot.stored
      have hsame : whole K (branch d b x (branch d a z y)) = whole K (branch d a (branch d b x z) y) := by
        have hflip : inorder (branch d b x (branch d a z y)) = inorder (branch d a (branch d b x z) y) :=
          inorder_rotate.symm
        rw [whole, hflip, whole]
      cases x with
      | nil =>
        refine ⟨_, _, K, false, ?_, hrot, hK, hsame, fun e he => ?_, settled_of_toward hb⟩
        swap
        · exact rotate_entry (notMem_whole he).1 (notMem_whole he).2
        rw [hturn, hb, if_pos rfl]
        exact if_pos hxb
      | node e l' r' =>
        refine ⟨_, _, _, true, ?_, hrot.link, guided_update hK (goes_iff.mp hb) d,
          (whole_update d).trans hsame, fun f hf => ?_, ⟨e, rfl⟩, ?_⟩
        · rw [hturn, hb, if_pos rfl, if_neg]
          have hsome : (g.tree.rotate d a b).child d b = some e := hxb
          rw [hsome]
          simp
        · rw [hrot.link_entry (hsame ▸ hf)]
          exact rotate_entry (notMem_whole hf).1 (notMem_whole hf).2
        · rw [height_branch]
          omega

/-- The loop of `SPLAY` ends, at the key or at an end of the way to it. -/
theorem loop_holds (h : g.Mid t K) (hK : ∀ i, Guided f (K i)) (ht : top t = some a) (hk : t.height ≤ k) :
    ∃ g' u K', loop f k g = some g' ∧ g'.Mid u K' ∧ (∀ i, Guided f (K' i)) ∧ Settled f u ∧
      whole K' u = whole K t ∧ ∀ e, e ∉ whole K t → g'.tree.entry e = g.tree.entry e := by
  induction k generalizing g t K a with
  | zero =>
    cases t with
    | nil => cases ht
    | node b l r => simp at hk
  | succ k ih =>
    cases t with
    | nil => cases ht
    | node b l r =>
    have hroot : g.tree.root = some b := h.root
    by_cases hzero : f b = 0
    · refine ⟨g, _, K, ?_, h, hK, .inl hzero, rfl, fun e _ => rfl⟩
      rw [loop, hroot, Option.bind_eq_bind, Option.bind_some, if_pos hzero]
      rfl
    · obtain ⟨d, hd⟩ : ∃ d, (if f b < 0 then Side.left else .right) = d := ⟨_, rfl⟩
      have hgoes : goes d (f b) = true := by
        rw [← hd]
        by_cases hneg : f b < 0 <;> simp [goes, hneg]
        omega
      have hloop : loop f (k + 1) g = (g.turn d f b).bind fun r => if r.2 then loop f k r.1 else some r.1 := by
        rw [loop, hroot, Option.bind_eq_bind, Option.bind_some, if_neg hzero, hd]
        rfl
      obtain ⟨x, y, hxy⟩ := exists_branch d b l r
      rw [hxy] at h hk ⊢
      rw [height_branch] at hk
      obtain ⟨g', u, K', more, hturn, hmid, hK', hsame, hframe, hmore⟩ := turn_holds h hK hgoes
      cases more with
      | false => exact ⟨g', u, K', by rw [hloop, hturn]; rfl, hmid, hK', hmore, hsame, hframe⟩
      | true =>
        obtain ⟨⟨e, he⟩, hheight⟩ := hmore
        obtain ⟨g₂, u₂, K₂, hg₂, hmid₂, hK₂, hset, hsame₂, hframe₂⟩ := ih hmid hK' he (by omega)
        refine ⟨g₂, u₂, K₂, by rw [hloop, hturn]; exact hg₂, hmid₂, hK₂, hset, hsame₂.trans hsame, ?_⟩
        intro e he
        rw [hframe₂ e (hsame ▸ he), hframe e he]

end Splaying

namespace Splay

omit [DecidableEq α] in
theorem Holds.mid (h : s.Holds t) : Splaying.Mid ⟨s, ⟨none, none⟩, .node, .node⟩ t fun _ => [] where
  root := h.root
  stored := h.stored
  hung d := ⟨none, by cases d <;> rfl⟩
  hook d := by cases d <;> rfl
  nodup := by simpa [whole, before, after] using h.nodup

/-- `SPLAY` brings the key to the root, or a neighbour of its place. -/
theorem splay_holds (h : s.Holds t) (ht : top t = some a) (hf : Cuts f (inorder t)) (hk : t.height ≤ k) :
    ∃ s' b x y, s.splay f k = some s' ∧ s'.Holds (.node b x y) ∧ inorder (.node b x y) = inorder t ∧
      (∀ e ∈ inorder x, 0 < f e) ∧ (∀ e ∈ inorder y, f e < 0) ∧
      ∀ e, e ∉ inorder t → s'.entry e = s.entry e := by
  obtain ⟨g, u, K, hg, hmid, hK, hset, hwhole, hframe⟩ := Splaying.loop_holds h.mid (by simp [Guided]) ht hk
  have hstart : whole (fun _ => []) t = inorder t := by simp [whole, before, after]
  rw [hstart] at hwhole hframe
  cases u with
  | nil => cases hset
  | node b l r =>
  obtain ⟨hholds, hframe'⟩ := hmid.assemble
  have hsame : inorder (.node b (plug l (K .right)) (plug r (K .left))) = inorder t := by
    rw [← hwhole]
    simp [inorder_plug, whole, before_eq_nil (hmid.sides .left), after_eq_nil (hmid.sides .right)]
  have hcuts := hf
  rw [← hsame] at hcuts
  obtain ⟨hcutsl, hcutsr, -⟩ := List.pairwise_append.mp hcuts
  refine ⟨g.assemble b, b, _, _, ?_, hholds, hsame, ?_, ?_, ?_⟩
  · have hroot : g.tree.root = some b := hmid.root
    rw [splay, hg]
    show g.tree.root.bind _ = _
    rw [hroot]
    rfl
  · by_cases hb : 0 ≤ f b
    · exact hcuts.pos_of_before hb
    · -- nothing is left below on the left
      obtain hb' | ⟨-, rfl⟩ | ⟨hb', -⟩ := hset
      · omega
      · have hleft : inorder (plug .nil (K .right)) = before (K .right) := by
          simp [inorder_plug, after_eq_nil (hmid.sides .right)]
        rw [hleft]
        exact Cuts.before_pos hcutsl (hK .right)
      · omega
  · by_cases hb : f b ≤ 0
    · exact hcuts.neg_of_after hb
    · obtain hb' | ⟨hb', -⟩ | ⟨-, rfl⟩ := hset
      · omega
      · omega
      · have hright : inorder (plug .nil (K .left)) = after (K .left) := by
          simp [inorder_plug, before_eq_nil (hmid.sides .left)]
        rw [hright]
        exact Cuts.after_neg (List.pairwise_cons.mp hcutsr).2 (hK .left)
  · intro e he
    rw [hframe' e (hwhole ▸ he), hframe e he]

/-- The head holds a tree with the elements in increasing order. -/
structure Sorted (cmp : α → α → ℤ) (s : Splay α) (l : List α) : Prop where
  tree : ∃ t, s.Holds t ∧ inorder t = l
  increasing : Increasing cmp l

omit [DecidableEq α] in
theorem height_le_length : t.height ≤ (inorder t).length :=
  numNodes_eq_length ▸ height_le_numNodes t

omit [DecidableEq α] in
/-- What stays of a tree with a root. -/
theorem Holds.node_eq (h : s.Holds t) (hroot : s.root = some a) : ∃ x y, t = .node a x y := by
  cases t with
  | nil => cases h.root.symm.trans hroot
  | node b x y =>
    cases h.root.symm.trans hroot
    exact ⟨x, y, rfl⟩

omit [DecidableEq α] in
theorem Sorted.eq_nil (h : s.Sorted cmp l) (hroot : s.root = none) : l = [] := by
  obtain ⟨⟨t, ht, rfl⟩, -⟩ := h
  cases t with
  | nil => rfl
  | node b x y => cases ht.root.symm.trans hroot

/-- `SPLAY` on a tree that is not empty. -/
theorem splay_sorted (h : s.Sorted cmp l) (hroot : s.root = some a) (hf : Cuts f l) (hk : l.length ≤ k) :
    ∃ s' b x y, s.splay f k = some s' ∧ s'.Holds (.node b x y) ∧ l = inorder x ++ b :: inorder y ∧
      (∀ e ∈ inorder x, 0 < f e) ∧ ∀ e ∈ inorder y, f e < 0 := by
  obtain ⟨⟨t, ht, rfl⟩, -⟩ := h
  obtain ⟨s', b, x, y, hs', h', hsame, hx, hy, -⟩ :=
    splay_holds ht (ht.root.symm.trans hroot) hf (height_le_length.trans hk)
  exact ⟨s', b, x, y, hs', h', hsame.symm, hx, hy⟩

omit [DecidableEq α] in
/-- The element that is equal to the key, with the key between the two sides of the root. -/
theorem find?_root (hx : ∀ e ∈ l, 0 < f e) (hy : ∀ e ∈ m, f e < 0) :
    (l ++ b :: m).find? (f · = 0) = if f b = 0 then some b else none := by
  have hskip : ∀ n : List α, (∀ e ∈ n, f e ≠ 0) → n.find? (f · = 0) = none := fun n hn =>
    List.find?_eq_none.mpr fun e he => by simpa using hn e he
  rw [List.find?_append, hskip l fun e he => (hx e he).ne', Option.none_or, List.find?_cons,
    hskip m fun e he => (hy e he).ne]
  split_ifs with hb <;> simp [hb]

/-- `SPLAY_FIND`. -/
theorem find_sorted (hcmp : ∀ l, Consistent cmp l) (h : s.Sorted cmp l) (hk : l.length ≤ k) :
    ∃ s', s.find cmp k e = some (s', l.find? (cmp e · = 0)) ∧ s'.Sorted cmp l := by
  cases hroot : s.root with
  | none =>
    obtain rfl := h.eq_nil hroot
    exact ⟨s, by rw [find, hroot]; rfl, h⟩
  | some a =>
    obtain ⟨s', b, x, y, hs', h', rfl, hx, hy⟩ := splay_sorted h hroot (h.increasing.cuts hcmp e) hk
    refine ⟨s', ?_, ⟨_, h', rfl⟩, h.increasing⟩
    have hroot' : s'.root = some b := h'.root
    rw [find, hroot]
    show (s.splay (cmp e) k).bind _ = _
    rw [hs', find?_root hx hy]
    show s'.root.bind _ = _
    rw [hroot']
    rfl

/-- A new element becomes the root. -/
theorem Holds.insertRoot (h : s.Holds (branch d b x y)) (he : e ∉ inorder (branch d b x y)) :
    (s.insertRoot d e b).Holds (branch d e (branch d b x .nil) y) := by
  obtain ⟨hbx, hby, hndx, hndy, hdisj⟩ := nodup_inorder_branch.mp h.nodup
  obtain ⟨hx, hy, hsx, hsy⟩ := stored_branch.mp h.stored
  simp only [mem_inorder_branch, not_or] at he
  obtain ⟨hne, hex, hey⟩ := he
  obtain ⟨s₁, hs₁⟩ : ∃ s₁, s.setChild d.flip e (s.child d.flip b) = s₁ := ⟨_, rfl⟩
  obtain ⟨s₂, hs₂⟩ : ∃ s₂, s₁.setChild d e (some b) = s₂ := ⟨_, rfl⟩
  obtain ⟨s₃, hs₃⟩ : ∃ s₃, s₂.setChild d.flip b none = s₃ := ⟨_, rfl⟩
  have he₁ : ∀ c, c ≠ e → s₁.entry c = s.entry c := fun c hc => hs₁ ▸ setChild_entry_of_ne hc
  have he₂ : ∀ c, c ≠ e → s₂.entry c = s₁.entry c := fun c hc => hs₂ ▸ setChild_entry_of_ne hc
  have he₃ : ∀ c, c ≠ b → s₃.entry c = s₂.entry c := fun c hc => hs₃ ▸ setChild_entry_of_ne hc
  have hinsert : s.insertRoot d e b = { s₃ with root := some e } := by
    rw [Splay.insertRoot, hs₁, hs₂, hs₃]
  have hentry : ∀ c, (s.insertRoot d e b).entry c = s₃.entry c := fun c => by rw [hinsert]
  have hrest : ∀ c, c ≠ e → c ≠ b → (s.insertRoot d e b).entry c = s.entry c := fun c hce hcb =>
    (hentry c).trans ((he₃ c hcb).trans ((he₂ c hce).trans (he₁ c hce)))
  have hnew : (s.insertRoot d e b).child d e = some b := by
    rw [child_of_entry ((hentry e).trans (he₃ e hne)), ← hs₂, child_setChild]
  have hnew' : (s.insertRoot d e b).child d.flip e = top y := by
    rw [child_of_entry ((hentry e).trans (he₃ e hne)), ← hs₂, child_flip_setChild, ← hs₁, child_setChild]
    exact hy
  have hold : (s.insertRoot d e b).child d b = top x := by
    rw [child_of_entry (hentry b), ← hs₃, child_setChild_flip,
      child_of_entry ((he₂ b (Ne.symm hne)).trans (he₁ b (Ne.symm hne)))]
    exact hx
  have hold' : (s.insertRoot d e b).child d.flip b = none := by
    rw [child_of_entry (hentry b), ← hs₃, child_setChild]
  have hsx' : (s.insertRoot d e b).Stored x :=
    hsx.congr fun c hc => hrest c (fun heq => hex (heq ▸ hc)) fun heq => hbx (heq ▸ hc)
  have hsy' : (s.insertRoot d e b).Stored y :=
    hsy.congr fun c hc => hrest c (fun heq => hey (heq ▸ hc)) fun heq => hby (heq ▸ hc)
  constructor
  · rw [hinsert, top_branch]
  · exact stored_branch.mpr ⟨hnew.trans top_branch.symm, hnew',
      stored_branch.mpr ⟨hold, hold', hsx', trivial⟩, hsy'⟩
  · refine nodup_inorder_branch.mpr ⟨?_, hey, nodup_inorder_branch.mpr ⟨hbx, by simp, hndx, by simp, by simp⟩,
      hndy, ?_⟩
    · simp [mem_inorder_branch, hne, hex]
    · intro c hc
      simp only [mem_inorder_branch, inorder, List.not_mem_nil, or_false] at hc
      obtain rfl | hc := hc
      · exact hby
      · exact hdisj hc

/-- `SPLAY_INSERT`. -/
theorem insert_sorted (hcmp : ∀ l, Consistent cmp l) (h : s.Sorted cmp l) (hk : l.length ≤ k) :
    (∀ a, l.find? (cmp e · = 0) = some a → ∃ s', s.insert cmp k e = some (s', some a) ∧ s'.Sorted cmp l) ∧
      (l.find? (cmp e · = 0) = none →
        ∃ s', s.insert cmp k e = some (s', none) ∧ s'.Sorted cmp (insertAt cmp e l)) := by
  cases hroot : s.root with
  | none =>
    obtain rfl := h.eq_nil hroot
    refine ⟨nofun, fun _ => ⟨_, by rw [insert, hroot], ⟨.node e .nil .nil, ?_, rfl⟩, ?_⟩⟩
    · refine ⟨rfl, ⟨?_, ?_, trivial, trivial⟩, by simp⟩
      · exact child_setChild (d := .left)
      · exact (child_flip_setChild (d := .left)).trans child_setChild
    · exact List.pairwise_singleton _ e
  | some a =>
    obtain ⟨s', b, x, y, hs', h', rfl, hx, hy⟩ := splay_sorted h hroot (h.increasing.cuts hcmp e) hk
    have hroot' : s'.root = some b := h'.root
    have hinsert : s.insert cmp k e = if cmp e b < 0 then some (s'.insertRoot .right e b, none)
        else if 0 < cmp e b then some (s'.insertRoot .left e b, none) else some (s', some b) := by
      rw [insert, hroot]
      show (s.splay (cmp e) k).bind _ = _
      rw [hs']
      show s'.root.bind _ = _
      rw [hroot']
      rfl
    have hself := (hcmp [e]).self (x := e) (by simp)
    have he : cmp e b ≠ 0 → e ∉ inorder (.node b x y) := by
      intro hb hmem
      simp only [inorder, List.mem_append, List.mem_cons] at hmem
      obtain hmem | rfl | hmem := hmem
      · have hpos := hx e hmem
        omega
      · exact hb hself
      · have hneg := hy e hmem
        omega
    rw [find?_root hx hy]
    constructor
    · intro c hc
      obtain ⟨hb, hc⟩ := Option.ite_none_right_eq_some.mp hc
      cases hc
      refine ⟨s', ?_, ⟨_, h', rfl⟩, h.increasing⟩
      rw [hinsert, if_neg (by omega), if_neg (by omega)]
    · intro hnone
      have hb : cmp e b ≠ 0 := by
        intro hb
        rw [if_pos hb] at hnone
        cases hnone
      obtain hlt | hgt := lt_or_gt_of_ne hb
      · have hm : ∀ c ∈ b :: inorder y, cmp e c < 0 := List.forall_mem_cons.mpr ⟨hlt, hy⟩
        rw [insertAt_eq hx hm]
        exact ⟨_, by rw [hinsert, if_pos hlt], ⟨_, Holds.insertRoot (d := .right) h' (he hb), by simp [branch]⟩,
          h.increasing.insert hcmp hx hm⟩
      · have hl : ∀ c ∈ inorder x ++ [b], 0 < cmp e c := by
          intro c hc
          obtain hc | hc := List.mem_append.mp hc
          · exact hx c hc
          · rw [List.mem_singleton.mp hc]
            exact hgt
        have hinc := h.increasing
        rw [List.append_cons] at hinc ⊢
        rw [insertAt_eq hl hy]
        exact ⟨_, by rw [hinsert, if_neg (by omega), if_pos hgt],
          ⟨_, Holds.insertRoot (d := .left) h' (he hb), by simp [branch]⟩, hinc.insert hcmp hl hy⟩

omit [DecidableEq α] in
/-- The head is set to a subtree of the root. -/
theorem Holds.below (h : s.Holds (branch d b x y)) : Holds { s with root := top x } x := by
  obtain ⟨-, -, hx, -⟩ := stored_branch.mp h.stored
  exact ⟨rfl, hx.congr fun c _ => rfl, (nodup_inorder_branch.mp h.nodup).2.2.1⟩

/-- A tree that is in memory is put below the root. -/
theorem Holds.join (h : s.Holds (branch d b x .nil)) (hy : s.Stored y)
    (hnodup : (inorder (branch d b x y)).Nodup) : (s.setChild d.flip b (top y)).Holds (branch d b x y) := by
  obtain ⟨hbx, hby, -⟩ := nodup_inorder_branch.mp hnodup
  obtain ⟨hx, -, hsx, -⟩ := stored_branch.mp h.stored
  refine ⟨h.root.trans (top_branch.trans top_branch.symm), stored_branch.mpr ⟨?_, child_setChild, ?_, ?_⟩, hnodup⟩
  · rw [child_setChild_flip]
    exact hx
  · exact hsx.congr fun c hc => setChild_entry_of_ne fun heq => hbx (heq ▸ hc)
  · exact hy.congr fun c hc => setChild_entry_of_ne fun heq => hby (heq ▸ hc)

/-- `SPLAY_REMOVE` when the element that is equal has come to the root. -/
theorem remove_root (h : s.Holds (.node b x y)) (hx : ∀ c ∈ inorder x, 0 < f c) (hcuts : Cuts f (inorder x))
    (hk : x.height ≤ k) (ht : top x = some a) :
    ∃ s₁ b₁ u, ({ s with root := some a } : Splay α).splay f k = some s₁ ∧ s₁.root = some b₁ ∧
      (s₁.setChild .right b₁ (top y)).Holds u ∧ inorder u = inorder x ++ inorder y := by
  obtain ⟨-, -, -, hsy⟩ := h.stored
  obtain ⟨-, hby, -, hndy, hdisj⟩ := (nodup_inorder_branch (d := .left)).mp h.nodup
  have hbelow : Holds { s with root := top x } x := Holds.below (d := .left) h
  rw [ht] at hbelow
  obtain ⟨s₁, b₁, x₁, y₁, hs₁, h₁, hsame, -, hy₁, hframe⟩ := splay_holds hbelow ht hcuts hk
  -- all of the left subtree is less than the key, and so nothing is on the right of the new root
  have hnil : y₁ = .nil := by
    cases y₁ with
    | nil => rfl
    | node c l r =>
      have hneg := hy₁ c (by simp)
      have hpos := hx c (by rw [← hsame]; simp)
      omega
  subst hnil
  have hsy₁ : s₁.Stored y := hsy.congr fun c hc => hframe c fun hcx => hdisj hcx hc
  have hall : inorder (.node b₁ x₁ y) = inorder x ++ inorder y := by
    rw [← hsame]
    simp
  have hnodup : (inorder (.node b₁ x₁ y)).Nodup := by
    rw [hall]
    exact List.nodup_append'.mpr ⟨hbelow.nodup, hndy, hdisj⟩
  exact ⟨s₁, b₁, .node b₁ x₁ y, hs₁, h₁.root, Holds.join (d := .left) h₁ hsy₁ hnodup, hall⟩

theorem remove_eq (hroot : s.root = some a) (hs' : s.splay (cmp e) k = some s') (hroot' : s'.root = some b)
    (hb : cmp e b = 0) :
    (s'.child .left b = none → s.remove cmp k e = some ({ s' with root := s'.child .right b }, some e)) ∧
      ∀ c, s'.child .left b = some c → s.remove cmp k e =
        (({ s' with root := some c } : Splay α).splay (cmp e) k).bind fun s₁ =>
          s₁.root.bind fun b₁ => some (s₁.setChild .right b₁ (s'.child .right b), some e) := by
  rw [remove, hroot]
  show (_ → (s.splay (cmp e) k).bind _ = _) ∧ ∀ c, _ → (s.splay (cmp e) k).bind _ = _
  rw [hs']
  show (_ → s'.root.bind _ = _) ∧ ∀ c, _ → s'.root.bind _ = _
  rw [hroot', Option.bind_some, if_pos hb]
  constructor
  · intro hleft
    rw [hleft]
    rfl
  · intro c hleft
    rw [hleft]
    rfl

/-- `SPLAY_REMOVE`. -/
theorem remove_sorted (hcmp : ∀ l, Consistent cmp l) (h : s.Sorted cmp l) (hk : l.length ≤ k) :
    (∀ a, l.find? (cmp e · = 0) = some a →
        ∃ s', s.remove cmp k e = some (s', some e) ∧ s'.Sorted cmp (l.erase a)) ∧
      (l.find? (cmp e · = 0) = none → ∃ s', s.remove cmp k e = some (s', none) ∧ s'.Sorted cmp l) := by
  cases hroot : s.root with
  | none =>
    obtain rfl := h.eq_nil hroot
    exact ⟨nofun, fun _ => ⟨s, by rw [remove, hroot], h⟩⟩
  | some a =>
    have hcuts := h.increasing.cuts hcmp e
    obtain ⟨s', b, x, y, hs', h', rfl, hx, hy⟩ := splay_sorted h hroot hcuts hk
    have hroot' : s'.root = some b := h'.root
    obtain ⟨hleft, hright, -, -⟩ := h'.stored
    rw [find?_root hx hy]
    constructor
    · intro c hc
      obtain ⟨hb, hc⟩ := Option.ite_none_right_eq_some.mp hc
      cases hc
      obtain ⟨hsingle, hdouble⟩ := remove_eq hroot hs' hroot' hb
      rw [hleft, hright] at hsingle hdouble
      have herased : Increasing cmp ((inorder x ++ b :: inorder y).erase b) :=
        h.increasing.sublist (List.erase_sublist ..)
      rw [erase_middle (h.increasing.nodup hcmp)] at herased ⊢
      cases x with
      | nil => exact ⟨_, hsingle rfl, ⟨y, Holds.below (d := .right) h', rfl⟩, herased⟩
      | node c l r =>
        have hlen : (inorder (.node c l r)).length ≤ k := by
          rw [List.length_append] at hk
          omega
        obtain ⟨s₁, b₁, u, hs₁, hroot₁, h₁, hu⟩ := remove_root h' hx (List.pairwise_append.mp hcuts).1
          (height_le_length.trans hlen) rfl
        refine ⟨_, ?_, ⟨u, h₁, hu⟩, herased⟩
        rw [hdouble c rfl, hs₁, Option.bind_some, hroot₁]
        rfl
    · intro hnone
      have hb : cmp e b ≠ 0 := by
        intro hb
        rw [if_pos hb] at hnone
        cases hnone
      refine ⟨s', ?_, ⟨_, h', rfl⟩, h.increasing⟩
      rw [remove, hroot]
      show (s.splay (cmp e) k).bind _ = _
      rw [hs']
      show s'.root.bind _ = _
      rw [hroot']
      exact if_neg hb

omit [DecidableEq α] in
/-- The way down on the left. -/
theorem leftmost_eq (h : s.Stored t) (ht : top t = some a) (hk : t.height ≤ k) :
    s.leftmost k a = (inorder t).head? := by
  induction t generalizing k a with
  | nil => cases ht
  | node b l r hl hr =>
    cases ht
    obtain ⟨hleft, -, hsl, -⟩ := h
    rw [height] at hk
    obtain ⟨k, rfl⟩ := Nat.exists_eq_add_one_of_ne_zero (n := k) (by omega)
    rw [leftmost, hleft]
    cases l with
    | nil => rfl
    | node c l₁ l₂ =>
      show s.leftmost k c = _
      rw [hl hsl rfl (by omega), inorder, List.head?_append]
      simp

/-- `SPLAY_NEXT` of an element of the tree. -/
theorem next_sorted (hcmp : ∀ l, Consistent cmp l) (h : s.Sorted cmp l) (hk : l.length ≤ k) (he : e ∈ l) :
    ∃ s', s.next cmp k e = some (s', l.find? (cmp e · < 0)) ∧ s'.Sorted cmp l := by
  cases hroot : s.root with
  | none =>
    obtain rfl := h.eq_nil hroot
    cases he
  | some a =>
    obtain ⟨s', b, x, y, hs', h', rfl, hx, hy⟩ := splay_sorted h hroot (h.increasing.cuts hcmp e) hk
    have hself := (hcmp [e]).self (x := e) (by simp)
    obtain rfl : e = b := by
      obtain he | he := List.mem_append.mp he
      · have hpos := hx e he
        omega
      · obtain heq | he := List.mem_cons.mp he
        · exact heq
        · have hneg := hy e he
          omega
    refine ⟨s', ?_, ⟨_, h', rfl⟩, h.increasing⟩
    obtain ⟨-, hright, -, hsy⟩ := h'.stored
    rw [(neighbours_eq hcmp h.increasing).1, next, hs', Option.bind_eq_bind, Option.bind_some, hright]
    cases y with
    | nil => rfl
    | node c l r =>
      have hlen : (inorder (.node c l r)).length ≤ k := by
        rw [List.length_append, List.length_cons] at hk
        omega
      have hleft := leftmost_eq hsy rfl (height_le_length.trans hlen)
      obtain ⟨m, hm⟩ : ∃ m, (inorder (.node c l r)).head? = some m :=
        Option.isSome_iff_exists.mp (by simp)
      show (s'.leftmost k c).bind _ = _
      rw [hleft, hm]
      rfl

/-- `SPLAY_MIN` and `SPLAY_MAX`. -/
theorem minMax_sorted (h : s.Sorted cmp l) (hk : l.length ≤ k) :
    (∃ s', s.minMax (-1) k = some (s', l.head?) ∧ s'.Sorted cmp l) ∧
      ∃ s', s.minMax 1 k = some (s', l.getLast?) ∧ s'.Sorted cmp l := by
  cases hroot : s.root with
  | none =>
    obtain rfl := h.eq_nil hroot
    exact ⟨⟨s, by rw [minMax, hroot]; rfl, h⟩, ⟨s, by rw [minMax, hroot]; rfl, h⟩⟩
  | some a =>
    have hminMax : ∀ (i : ℤ) s' b, i ≠ 0 → s.splay (fun _ => i) k = some s' → s'.root = some b →
        s.minMax i k = some (s', some b) := by
      intro i s' b hi hs' hroot'
      rw [minMax, hroot]
      show (s.minmax i k).map _ = _
      rw [minmax, if_neg hi, hs', Option.map_some, hroot']
    constructor
    · have hcuts : Cuts (fun _ => -1) l := List.pairwise_of_forall (by simp)
      obtain ⟨s', b, x, y, hs', h', rfl, hx, hy⟩ := splay_sorted h hroot hcuts hk
      have hnil : inorder x = [] := List.eq_nil_iff_forall_not_mem.mpr fun c hc => by
        have hpos := hx c hc
        omega
      refine ⟨s', ?_, ⟨_, h', rfl⟩, h.increasing⟩
      rw [hminMax (-1) s' b (by decide) hs' h'.root, hnil]
      rfl
    · have hcuts : Cuts (fun _ => 1) l := List.pairwise_of_forall (by simp)
      obtain ⟨s', b, x, y, hs', h', rfl, hx, hy⟩ := splay_sorted h hroot hcuts hk
      have hnil : inorder y = [] := List.eq_nil_iff_forall_not_mem.mpr fun c hc => by
        have hneg := hy c hc
        omega
      refine ⟨s', ?_, ⟨_, h', rfl⟩, h.increasing⟩
      rw [hminMax 1 s' b (by decide) hs' h'.root, hnil, List.getLast?_concat]

end Splay

/-! ### Programs -/

/-- The calls of a program on a splay tree. -/
inductive SplayCall (α : Type*) where
  | insert (elm : α)
  | remove (elm : α)
  | find (elm : α)
  | next (elm : α)
  | min
  | max

namespace SplayCall

/-- What a call does to the increasing list of the elements. `SPLAY_REMOVE` takes out the element that
is equal to its argument and gives back the argument. Only an element of the tree may be asked for the
next one. -/
def spec (cmp : α → α → ℤ) : SplayCall α → List α → Option (List α × Option α)
  | .insert e, l =>
    match l.find? (cmp e · = 0) with
    | some a => some (l, some a)
    | none => some (insertAt cmp e l, none)
  | .remove e, l =>
    match l.find? (cmp e · = 0) with
    | some a => some (l.erase a, some e)
    | none => some (l, none)
  | .find e, l => some (l, l.find? (cmp e · = 0))
  | .next e, l => if e ∈ l then some (l, l.find? (cmp e · < 0)) else none
  | .min, l => some (l, l.head?)
  | .max, l => some (l, l.getLast?)

/-- The call in memory, with loops of at most `k` rounds. -/
def run (cmp : α → α → ℤ) (k : ℕ) : SplayCall α → Splay α → Option (Splay α × Option α)
  | .insert e, s => s.insert cmp k e
  | .remove e, s => s.remove cmp k e
  | .find e, s => s.find cmp k e
  | .next e, s => s.next cmp k e
  | .min, s => s.minMax (-1) k
  | .max, s => s.minMax 1 k

theorem spec_length {c : SplayCall α} {r : Option α} (h : c.spec cmp l = some (l', r)) :
    l'.length ≤ l.length + 1 := by
  cases c with
  | insert e =>
    rw [spec] at h
    split at h
    · cases h
      omega
    · cases h
      rw [insertAt, List.orderedInsert_length]
  | remove e =>
    rw [spec] at h
    split at h
    · rename_i a _
      cases h
      have hlen : (l.erase a).length ≤ l.length := (List.erase_sublist ..).length_le
      omega
    · cases h
      omega
  | next e =>
    obtain ⟨-, h⟩ := Option.ite_none_right_eq_some.mp h
    cases h
    omega
  | find e | min | max =>
    cases h
    omega

/-- Each call does to the tree what it does to the list. -/
theorem run_spec (hcmp : ∀ l, Consistent cmp l) (h : s.Sorted cmp l) (hk : l.length ≤ k) (c : SplayCall α)
    {r : Option α} (hc : c.spec cmp l = some (l', r)) :
    ∃ s', c.run cmp k s = some (s', r) ∧ s'.Sorted cmp l' := by
  cases c with
  | insert e =>
    obtain ⟨hold, hnew⟩ := Splay.insert_sorted hcmp h hk (e := e)
    rw [spec] at hc
    split at hc
    · rename_i a ha
      cases hc
      exact hold a ha
    · rename_i hnone
      cases hc
      exact hnew hnone
  | remove e =>
    obtain ⟨hold, hnew⟩ := Splay.remove_sorted hcmp h hk (e := e)
    rw [spec] at hc
    split at hc
    · rename_i a ha
      cases hc
      exact hold a ha
    · rename_i hnone
      cases hc
      exact hnew hnone
  | find e =>
    cases hc
    exact Splay.find_sorted hcmp h hk
  | next e =>
    obtain ⟨he, hc⟩ := Option.ite_none_right_eq_some.mp hc
    cases hc
    exact Splay.next_sorted hcmp h hk he
  | min =>
    cases hc
    exact (Splay.minMax_sorted h hk).1
  | max =>
    cases hc
    exact (Splay.minMax_sorted h hk).2

end SplayCall

omit [DecidableEq α] in
theorem Splay.sorted_init (cmp : α → α → ℤ) (s : Splay α) : s.init.Sorted cmp [] where
  tree := ⟨.nil, ⟨rfl, trivial, List.nodup_nil⟩, rfl⟩
  increasing := List.Pairwise.nil

/-- A program that asks only for the neighbours of elements that are in the tree finds in it an ordered
set of its elements, although every call, the lookups as well, gives the tree another shape. Each call
gives the answer of the set, and no loop takes more rounds than there were calls. -/
theorem splay_refines (hcmp : ∀ l, Consistent cmp l) (s : Splay α) {cs : List (SplayCall α)}
    {as : List (Option α)} (hcs : answers (SplayCall.spec cmp) cs [] = some (l, as)) (hk : cs.length ≤ k) :
    ∃ s', answers (SplayCall.run cmp k) cs s.init = some (s', as) ∧ s'.Sorted cmp l := by
  refine answers_refine List.length cs.length (fun c t t' a h => SplayCall.spec_length h) ?_
    (Splay.sorted_init cmp s) (by simp) hcs
  intro c s t t' a h hn hc
  exact SplayCall.run_spec hcmp h (hn.trans hk) c hc

theorem splay_refines_once : ∃ s', answers (SplayCall.run (fun a b : ℕ => (a - b : ℤ)) 8)
    [.insert 2, .insert 1, .insert 4, .insert 2, .find 1, .next 1, .remove 2, .max]
      (Splay.init ⟨fun _ => ⟨none, none⟩, none⟩) =
        some (s', [none, none, none, some 2, some 1, some 2, some 2, some 4]) ∧
      s'.Sorted (fun a b : ℕ => (a - b : ℤ)) [1, 4] :=
  splay_refines consistent_sub _ (by decide +kernel) (by decide)

/-! ### Loops over a splay tree -/

namespace Splay

theorem forEachFrom_sorted (hcmp : ∀ l, Consistent cmp l) {body : Splay α → α → Option (Splay α)} {n : ℕ}
    (hbody : ∀ s a, s.Sorted cmp (l ++ m) → a ∈ l ++ m → ∃ s', body s a = some s' ∧ s'.Sorted cmp (l ++ m))
    (h : s.Sorted cmp (l ++ m)) (hk : (l ++ m).length ≤ k) (hn : m.length ≤ n) :
    ∃ s', s.forEachFrom cmp k body n m.head? = some (s', m) ∧ s'.Sorted cmp (l ++ m) := by
  induction m generalizing s l n with
  | nil =>
    refine ⟨s, ?_, h⟩
    cases n <;> rfl
  | cons a m ih =>
    rw [List.length_cons] at hn
    obtain ⟨n, rfl⟩ := Nat.exists_eq_add_one_of_ne_zero (n := n) (by omega)
    have ha : a ∈ l ++ a :: m := by simp
    obtain ⟨s₁, hs₁, h₁⟩ := hbody s a h ha
    obtain ⟨s₂, hs₂, h₂⟩ := next_sorted hcmp h₁ hk ha
    rw [(neighbours_eq hcmp h.increasing).1] at hs₂
    rw [List.append_cons] at hbody h₂ hk
    obtain ⟨s₃, hs₃, h₃⟩ := ih (n := n) hbody h₂ hk (by omega)
    rw [← List.append_cons] at h₃
    refine ⟨s₃, ?_, h₃⟩
    show s.forEachFrom cmp k body (n + 1) (some a) = _
    rw [forEachFrom, hs₁, Option.bind_eq_bind, Option.bind_some, hs₂]
    show (s₂.forEachFrom cmp k body n m.head?).bind _ = _
    rw [hs₃]
    rfl

/-- `SPLAY_FOREACH` visits every element once, in order, although each step and the body give the tree
another shape, as long as the body keeps the elements. -/
theorem splay_forEach (hcmp : ∀ l, Consistent cmp l) {body : Splay α → α → Option (Splay α)} {n : ℕ}
    (hbody : ∀ s a, s.Sorted cmp l → a ∈ l → ∃ s', body s a = some s' ∧ s'.Sorted cmp l)
    (h : s.Sorted cmp l) (hk : l.length ≤ k) (hn : l.length ≤ n) :
    ∃ s', s.forEach cmp k body n = some (s', l) ∧ s'.Sorted cmp l := by
  obtain ⟨s₁, hs₁, h₁⟩ := (minMax_sorted h hk).1
  obtain ⟨s₂, hs₂, h₂⟩ := forEachFrom_sorted hcmp (l := []) hbody h₁ hk hn
  refine ⟨s₂, ?_, h₂⟩
  rw [forEach, hs₁]
  exact hs₂

/-- The element 1 below 2. -/
def couple : Splay ℕ where
  entry a := if a = 2 then ⟨some 1, none⟩ else ⟨none, none⟩
  root := some 2

theorem couple_sorted : couple.Sorted (fun a b : ℕ => (a - b : ℤ)) [1, 2] where
  tree := ⟨.node 2 (.node 1 .nil .nil) .nil, ⟨rfl, ⟨rfl, rfl, ⟨rfl, rfl, trivial, trivial⟩, trivial⟩, by decide⟩, rfl⟩
  increasing := by simp [Increasing]

theorem splay_forEach_once : ∃ s', couple.forEach (fun a b : ℕ => (a - b : ℤ)) 2
      (fun s _ => (s.find (fun a b : ℕ => (a - b : ℤ)) 2 2).map fun r => r.1) 2 = some (s', [1, 2]) ∧
    s'.Sorted (fun a b : ℕ => (a - b : ℤ)) [1, 2] := by
  refine splay_forEach consistent_sub ?_ couple_sorted (by decide) (by decide)
  intro s a h _
  obtain ⟨s', hs', h'⟩ := find_sorted consistent_sub h (k := 2) (e := 2) (by decide)
  exact ⟨s', by rw [hs', Option.map_some], h'⟩

end Splay

end MuslBsd.Trees
