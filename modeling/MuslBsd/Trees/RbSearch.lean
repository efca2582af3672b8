import MuslBsd.Trees.RbShape

/-! The lookups of `tree.h` in a red-black tree: each one ends after as many rounds as the tree is
high. -/
namespace MuslBsd.Trees
open MuslBsd.Support BinaryTree Rb

variable {α : Type*} {s : Rb α} {t u l r x y : RbTree α} {k : List (RbCrumb α)} {a b e : α} {c : Color}
  {d : Side} {p q : Option α} {f : α → ℤ} {fuel : ℕ} {i : ℤ} {cmp : α → α → ℤ}

theorem elements_node : elements (.node (c, a) l r) = elements l ++ a :: elements r := by
  simp [elements]

namespace Rb

theorem Stored.left (h : s.Stored q (.node (c, a) l r)) : s.child .left a = addr l :=
  child_of_entry (d := .left) h.1

theorem Stored.right (h : s.Stored q (.node (c, a) l r)) : s.child .right a = addr r :=
  child_flip_of_entry (d := .left) h.1

/-- The first of the elements that the key is not greater than, and what was found before. -/
theorem nfindFrom_eq (h : s.Stored q t) (hf : Cuts f (elements t)) (hfuel : t.height < fuel) :
    s.nfindFrom f fuel (addr t) p = some (((elements t).find? (f · ≤ 0)).or p) := by
  induction t generalizing q p fuel with
  | nil =>
    cases fuel with
    | zero => simp at hfuel
    | succ fuel => rfl
  | node v l r hl hr =>
    obtain ⟨c, a⟩ := v
    obtain ⟨fuel, rfl⟩ := Nat.exists_eq_add_one_of_ne_zero (n := fuel) (by omega)
    rw [height] at hfuel
    rw [elements_node] at hf ⊢
    have hcutl := (List.pairwise_append.mp hf).1
    have hcutr := (List.pairwise_cons.mp (List.pairwise_append.mp hf).2.1).2
    rw [addr, nfindFrom]
    split
    · rename_i hneg
      rw [h.left, hl h.2.1 hcutl (by omega), List.find?_append, List.find?_cons_of_pos (by simp; omega)]
      simp
    · have hskip : (elements l).find? (f · ≤ 0) = none := by
        refine List.find?_eq_none.mpr fun b hb => ?_
        have hpos := hf.pos_of_before (by omega) b hb
        simp
        omega
      rw [List.find?_append, hskip, Option.none_or]
      split
      · rename_i hpos
        rw [h.right, hr h.2.2 hcutr (by omega), List.find?_cons_of_neg (by simp; omega)]
      · rw [List.find?_cons_of_pos (by simp; omega)]
        rfl

theorem findFrom_eq (h : s.Stored q t) (hf : Cuts f (elements t)) (hfuel : t.height < fuel) :
    s.findFrom f fuel (addr t) = some ((elements t).find? (f · = 0)) := by
  induction t generalizing q fuel with
  | nil =>
    cases fuel with
    | zero => simp at hfuel
    | succ fuel => rfl
  | node v l r hl hr =>
    obtain ⟨c, a⟩ := v
    obtain ⟨fuel, rfl⟩ := Nat.exists_eq_add_one_of_ne_zero (n := fuel) (by omega)
    rw [height] at hfuel
    rw [elements_node] at hf ⊢
    have hcutl := (List.pairwise_append.mp hf).1
    have hcutr := (List.pairwise_cons.mp (List.pairwise_append.mp hf).2.1).2
    rw [addr, findFrom]
    split
    · rename_i hneg
      have hskip : (a :: elements r).find? (f · = 0) = none := by
        refine List.find?_eq_none.mpr fun b hb => ?_
        obtain rfl | hb := List.mem_cons.mp hb
        · simp
          omega
        · have hneg' := hf.neg_of_after (by omega) b hb
          simp
          omega
      rw [h.left, hl h.2.1 hcutl (by omega), List.find?_append, hskip, Option.or_none]
    · have hskip : (elements l).find? (f · = 0) = none := by
        refine List.find?_eq_none.mpr fun b hb => ?_
        have hpos := hf.pos_of_before (by omega) b hb
        simp
        omega
      rw [List.find?_append, hskip, Option.none_or]
      split
      · rename_i hpos
        rw [h.right, hr h.2.2 hcutr (by omega), List.find?_cons_of_neg (by simp; omega)]
      · rw [List.find?_cons_of_pos (by simp; omega)]

/-- The comparison with the last element on the way tells the side of the position. -/
def Turned (i : ℤ) (k : List (RbCrumb α)) : Prop :=
  ∀ cr ∈ k.head?, (if i < 0 then Side.left else .right) = cr.side

/-- The loop of `RB_INSERT` goes to the element that is equal, or to the place for the key. -/
theorem insertPlace_eq (h : s.Stored q t) (hfuel : t.height < fuel) (hi : Turned i k) :
    ∃ i', Turned i' (descend (f ·.2) t k).2 ∧ s.insertPlace f fuel (addr t) (above k) i =
      some ((addr (descend (f ·.2) t k).1).elim (.inr (above (descend (f ·.2) t k).2, i')) .inl) := by
  induction t generalizing q k fuel i with
  | nil =>
    cases fuel with
    | zero => simp at hfuel
    | succ fuel => exact ⟨i, hi, rfl⟩
  | node v l r hl hr =>
    obtain ⟨c, a⟩ := v
    obtain ⟨fuel, rfl⟩ := Nat.exists_eq_add_one_of_ne_zero (n := fuel) (by omega)
    rw [height] at hfuel
    unfold descend
    rw [addr, insertPlace]
    dsimp only
    split
    · rename_i hneg
      rw [h.left]
      refine hl (k := ⟨.left, (c, a), r⟩ :: k) h.2.1 (by omega) ?_
      intro cr hcr
      cases hcr
      exact if_pos hneg
    · rename_i hneg
      split
      · rw [h.right]
        refine hr (k := ⟨.right, (c, a), l⟩ :: k) h.2.2 (by omega) ?_
        intro cr hcr
        cases hcr
        exact if_neg hneg
      · exact ⟨i, hi, rfl⟩

/-- Where the way down for `e` ends: at the element that is equal, or between those that are less
and those that are greater. -/
theorem insertPlace_cases (h : s.Holds t) (hcuts : Cuts (cmp e) (elements t)) (hfuel : t.height < fuel) :
    (∃ a, (elements t).find? (cmp e · = 0) = some a ∧
      s.insertPlace (cmp e) fuel s.root none 0 = some (.inl a)) ∨
    (elements t).find? (cmp e · = 0) = none ∧ ∃ k i, t = plug .nil k ∧ Turned i k ∧
      s.insertPlace (cmp e) fuel s.root none 0 = some (.inr (above k, i)) ∧
        (∀ a ∈ (before k).map Prod.snd, 0 < cmp e a) ∧ ∀ a ∈ (after k).map Prod.snd, cmp e a < 0 := by
  have hcuts' : Cuts (fun v => cmp e v.2) (inorder t) := List.pairwise_map.mp hcuts
  have hturned : Turned 0 ([] : List (RbCrumb α)) := by simp [Turned]
  obtain ⟨i, hi, hplace⟩ := insertPlace_eq (f := cmp e) h.stored hfuel hturned
  have hplug : plug _ _ = plug t [] := plug_descend (f := fun v => cmp e v.2)
  have hguided := guided_descend (f := fun v => cmp e v.2) (t := t) (k := []) (by simp [Guided])
  have hroot := root_descend (f := fun v => cmp e v.2) (t := t) (k := [])
  generalize descend (fun v => cmp e v.2) t [] = way at *
  obtain ⟨u, k⟩ := way
  have hplug' : plug u k = t := hplug
  rw [← h.root] at hplace
  obtain rfl | ⟨⟨c, a⟩, l, r, rfl, hzero⟩ : u = .nil ∨ ∃ v l r, u = .node v l r ∧ cmp e v.2 = 0 := hroot
  · right
    rw [← hplug'] at hcuts'
    have hbefore := hcuts'.before_pos hguided
    have hafter := hcuts'.after_neg hguided
    have hbefore' : ∀ a ∈ (before k).map Prod.snd, 0 < cmp e a := List.forall_mem_map.mpr hbefore
    have hafter' : ∀ a ∈ (after k).map Prod.snd, cmp e a < 0 := List.forall_mem_map.mpr hafter
    refine ⟨List.find?_eq_none.mpr fun a ha => ?_, k, i, hplug'.symm, hi, hplace, hbefore', hafter'⟩
    have hmem : a ∈ (before k).map Prod.snd ∨ a ∈ (after k).map Prod.snd := by
      rw [← hplug', mem_plug, elementsAround, List.map_append, List.mem_append] at ha
      simpa using ha
    obtain hmem | hmem := hmem
    · have hpos := hbefore' a hmem
      simp
      omega
    · have hneg := hafter' a hmem
      simp
      omega
  · left
    have hmem : a ∈ elements t := by
      rw [← hplug']
      exact mem_plug.mpr (.inl (by simp [elements]))
    exact ⟨a, hcuts.find?_eq hmem hzero, hplace⟩

/-! ### The ends of a tree and the neighbours of an element -/

/-- The end of a list on a side. -/
def ultimate (d : Side) (l : List α) : Option α :=
  match d with
  | .left => l.head?
  | .right => l.getLast?

/-- The elements around a position on a side. -/
def aside (d : Side) (k : List (RbCrumb α)) : List α :=
  match d with
  | .left => (before k).map Prod.snd
  | .right => (after k).map Prod.snd

theorem ultimate_branch : ultimate d (elements (branch d (c, a) x y)) = (ultimate d (elements x)).or (some a) := by
  cases d with
  | left => simp [ultimate, elements_branch, List.head?_append]
  | right =>
    simp only [ultimate, elements_branch, reduceCtorEq, if_false, List.getLast?_append, List.getLast?_cons]
    cases (elements x).getLast? <;> rfl

theorem exists_ultimate (ht : addr t = some a) : ∃ e, ultimate d (elements t) = some e := by
  cases t with
  | nil => cases ht
  | node v l r =>
    obtain ⟨c, b⟩ := v
    obtain ⟨x, y, hxy⟩ := exists_branch d (c, b) l r
    rw [hxy, ultimate_branch]
    cases ultimate d (elements x) with
    | none => exact ⟨b, rfl⟩
    | some e => exact ⟨e, rfl⟩

theorem minmaxFrom_eq (h : s.Stored q t) (hfuel : t.height < fuel) : s.minmaxFrom i fuel (addr t) p =
    some ((ultimate (if i < 0 then .left else .right) (elements t)).or p) := by
  obtain ⟨d, hd⟩ : ∃ d, (if i < 0 then Side.left else .right) = d := ⟨_, rfl⟩
  rw [hd]
  induction fuel generalizing t q p with
  | zero => omega
  | succ fuel ih =>
    cases t with
    | nil => cases d <;> rfl
    | node v l r =>
      obtain ⟨c, a⟩ := v
      obtain ⟨x, y, hxy⟩ := exists_branch d (c, a) l r
      rw [hxy] at h hfuel ⊢
      obtain ⟨ha, hx, -⟩ := stored_branch.mp h
      rw [height_branch] at hfuel
      rw [addr_branch, minmaxFrom, hd, child_of_entry ha, ih hx (by omega), ultimate_branch]
      cases ultimate d (elements x) <;> rfl

theorem endmost_eq (h : s.Stored q t) (ht : addr t = some a) (hfuel : t.height ≤ fuel) :
    s.endmost d fuel a = ultimate d (elements t) := by
  induction fuel generalizing t q a with
  | zero =>
    cases t with
    | nil => cases ht
    | node v l r => simp at hfuel
  | succ fuel ih =>
    cases t with
    | nil => cases ht
    | node v l r =>
      obtain ⟨c, b⟩ := v
      obtain ⟨x, y, hxy⟩ := exists_branch d (c, b) l r
      cases ht
      rw [hxy] at h hfuel ⊢
      obtain ⟨ha, hx, -⟩ := stored_branch.mp h
      rw [height_branch] at hfuel
      rw [endmost, child_of_entry ha, ultimate_branch]
      cases x with
      | nil => cases d <;> rfl
      | node v l' r' =>
        obtain ⟨c', b'⟩ := v
        have hend := ih (a := b') hx rfl (by omega)
        obtain ⟨e, he⟩ := exists_ultimate (d := d) (t := .node (c', b') l' r') rfl
        show s.endmost d fuel b' = _
        rw [hend, he]
        rfl

theorem ultimate_aside_cons {d' : Side} : ultimate d.flip (aside d (⟨d', (c, a), u⟩ :: k)) =
    if d' = d then ultimate d.flip (aside d k) else some a := by
  cases d <;> cases d' <;> simp [ultimate, aside, before, after, Crumb.before, Crumb.after]

theorem Holds.child_eq_iff {d' : Side} (h : s.Holds (plug (branch d' (c, b) t u) k)) (ht : addr t = some a) :
    s.child d b = some a ↔ d' = d := by
  have hb := h.entry
  rw [ht] at hb
  obtain rfl | rfl : d' = d ∨ d = d'.flip := by
    cases d <;> cases d' <;> simp
  · exact iff_of_true (child_of_entry hb) rfl
  · rw [child_flip_of_entry hb]
    exact iff_of_false (h.addr_ne ht) Side.ne_flip

/-- The loop at the end of `RB_NEXT` and `RB_PREV`. -/
theorem climb_eq [DecidableEq α] (h : s.Holds (plug t k)) (ht : addr t = some a)
    (hfuel : k.length < fuel) : s.climb d fuel a = some (ultimate d.flip (aside d k)) := by
  induction k generalizing t a fuel with
  | nil =>
    obtain ⟨fuel, rfl⟩ := Nat.exists_eq_add_one_of_ne_zero (n := fuel) (by simp at hfuel; omega)
    rw [climb, h.parent ht]
    cases d <;> rfl
  | cons cr k ih =>
    obtain ⟨d', ⟨c, b⟩, u⟩ := cr
    obtain ⟨fuel, rfl⟩ := Nat.exists_eq_add_one_of_ne_zero (n := fuel) (by omega)
    have hb : s.Holds (plug (branch d' (c, b) t u) k) := h
    have hup : s.climb d (fuel + 1) a = if s.child d b = some a then s.climb d fuel b else some (some b) := by
      rw [climb, h.parent ht]
      rfl
    rw [hup, ultimate_aside_cons]
    by_cases hside : d' = d
    · rw [if_pos ((hb.child_eq_iff ht).mpr hside), if_pos hside]
      exact ih hb addr_branch (by simpa using hfuel)
    · rw [if_neg fun hc => hside ((hb.child_eq_iff ht).mp hc), if_neg hside]

/-- `RB_NEXT` and `RB_PREV` give the next element on a side. -/
theorem step_eq [DecidableEq α] (h : s.Holds (plug (branch d (c, a) x y) k))
    (hfuel : (plug (branch d (c, a) x y) k).height < fuel) : s.step d fuel a =
      some ((ultimate d.flip (elements x)).or (ultimate d.flip (aside d k))) := by
  have hheight := height_plug (t := branch d (c, a) x y) (k := k)
  rw [height_branch] at hheight
  have hchild : s.child d a = addr x := child_of_entry h.entry
  cases x with
  | nil =>
    have hclimb : s.climb d fuel a = some (ultimate d.flip (aside d k)) :=
      climb_eq h addr_branch (by omega)
    have hnone : ultimate d.flip (elements (.nil : RbTree α)) = none := by
      cases d <;> rfl
    rw [step, hchild, hnone, Option.none_or, ← hclimb, h.parent addr_branch]
    cases k with
    | nil => rfl
    | cons cr k =>
      obtain ⟨d', ⟨c', b⟩, u⟩ := cr
      have hb : s.Holds (plug (branch d' (c', b) (branch d (c, a) .nil y) u) k) := h
      show (if s.child d.flip b = some a then some (some b) else s.climb d fuel a) = s.climb d fuel a
      split
      · rename_i hside
        have hd := (hb.child_eq_iff addr_branch).mp hside
        rw [hclimb, ultimate_aside_cons, if_neg fun heq => Side.ne_flip (heq.symm.trans hd)]
      · rfl
  | node v l r =>
    obtain ⟨c', b⟩ := v
    obtain ⟨hx, -⟩ := (stored_branch.mp (holds_plug.mp h).1).2
    have hend : s.endmost d.flip fuel b = ultimate d.flip (elements (.node (c', b) l r)) :=
      endmost_eq hx rfl (by omega)
    obtain ⟨e, he⟩ := exists_ultimate (d := d.flip) (t := .node (c', b) l r) rfl
    rw [step, hchild]
    show (s.endmost d.flip fuel b).map some = _
    rw [hend, he]
    rfl

/-! ### Lookups in the tree of a head -/

variable {elms : List α}

theorem find_sorted (hcmp : ∀ l, Consistent cmp l) (h : s.Sorted cmp elms) (hfuel : rounds elms.length < fuel) :
    s.find cmp fuel e = some (elms.find? (cmp e · = 0)) := by
  obtain ⟨⟨t, n, ht, hrb, rfl⟩, hinc⟩ := h
  rw [find, ht.root]
  exact findFrom_eq ht.stored (hinc.cuts hcmp e) ((height_le_rounds hrb).trans_lt hfuel)

theorem nfind_sorted (hcmp : ∀ l, Consistent cmp l) (h : s.Sorted cmp elms) (hfuel : rounds elms.length < fuel) :
    s.nfind cmp fuel e = some (elms.find? (cmp e · ≤ 0)) := by
  obtain ⟨⟨t, n, ht, hrb, rfl⟩, hinc⟩ := h
  rw [nfind, ht.root, nfindFrom_eq ht.stored (hinc.cuts hcmp e) ((height_le_rounds hrb).trans_lt hfuel),
    Option.or_none]

theorem minmax_sorted (h : s.Sorted cmp elms) (hfuel : rounds elms.length < fuel) :
    s.minmax i fuel = some (ultimate (if i < 0 then .left else .right) elms) := by
  obtain ⟨⟨t, n, ht, hrb, rfl⟩, hinc⟩ := h
  rw [minmax, ht.root, minmaxFrom_eq ht.stored ((height_le_rounds hrb).trans_lt hfuel), Option.or_none]

end Rb

end MuslBsd.Trees
