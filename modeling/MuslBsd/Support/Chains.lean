import Mathlib.Data.List.Nodup
import Mathlib.Data.List.Basic
import Mathlib.Logic.Function.Basic

/-! Lists that are chained through their elements: from each cell a pointer to the next element, and
in some cells one back to the cell in front. The last cell is what the back pointer of the head leads
to. -/
namespace MuslBsd.Support

variable {η α : Type*}

/-- The head of a list, or an element. -/
inductive Cell (η α : Type*) where
  | head (h : η)
  | elm (a : α)
  deriving DecidableEq

/-- The pointers of the cells, null as `none`. -/
structure Cells (η α : Type*) where
  next : Cell η α → Option α
  back : Cell η α → Cell η α

/-- Two memories agree on a cell. -/
structure Same (m m' : Cells η α) (p : Cell η α) : Prop where
  next : m'.next p = m.next p
  back : m'.back p = m.back p

def Cells.setNext [DecidableEq η] [DecidableEq α] (m : Cells η α) (p : Cell η α) (q : Option α) : Cells η α :=
  { m with next := Function.update m.next p q }

def Cells.setBack [DecidableEq η] [DecidableEq α] (m : Cells η α) (p c : Cell η α) : Cells η α :=
  { m with back := Function.update m.back p c }

section

variable [DecidableEq η] [DecidableEq α] {m : Cells η α} {p c r : Cell η α} {q : Option α}

namespace Cells

@[simp] theorem setNext_next_self : (m.setNext p q).next p = q := Function.update_self ..
@[simp] theorem setNext_back : (m.setNext p q).back = m.back := rfl
@[simp] theorem setBack_next : (m.setBack p c).next = m.next := rfl
@[simp] theorem setBack_back_self : (m.setBack p c).back p = c := Function.update_self ..

theorem setNext_next_of_ne (hr : r ≠ p) : (m.setNext p q).next r = m.next r := Function.update_of_ne hr ..

theorem setBack_back_of_ne (hr : r ≠ p) : (m.setBack p c).back r = m.back r := Function.update_of_ne hr ..

end Cells

end

/-- The cell with the back pointer to the cell before `q`. That to the last cell is in the head. -/
def rear (h : η) : Option α → Cell η α
  | none => .head h
  | some a => .elm a

/-- The cells from `p` through `l`, each with the pointer to the one behind it, as far as `q`. -/
def seams (p : Cell η α) (q : Option α) : List α → List (Cell η α × Option α)
  | [] => [(p, q)]
  | a :: l => (p, some a) :: seams (.elm a) q l

/-- The last cell. -/
def lastCell (p : Cell η α) : List α → Cell η α
  | [] => p
  | a :: l => lastCell (.elm a) l

/-- The head and the elements of a list. -/
def cells (h : η) (l : List α) : List (Cell η α) := .head h :: l.map .elm

/-- `q` is behind `p`, and the back pointer leads to `p` where there is one. -/
structure Joined (keeps : Cell η α → Prop) (m : Cells η α) (h : η) (p : Cell η α) (q : Option α) : Prop where
  next : m.next p = q
  back : keeps (rear h q) → m.back (rear h q) = p

/-- The list at `h` has the elements `l`. `keeps` tells which cells have a back pointer. -/
structure Chain (keeps : Cell η α → Prop) (m : Cells η α) (h : η) (l : List α) : Prop where
  joined : ∀ x ∈ seams (.head h) none l, Joined keeps m h x.1 x.2
  nodup : l.Nodup

@[simp] theorem rear_none {h : η} : rear h (none : Option α) = .head h := rfl
@[simp] theorem rear_some {h : η} {a : α} : rear h (some a) = .elm a := rfl

variable {keeps : Cell η α → Prop} {m m' : Cells η α} {h h' : η} {l l' l₁ l₂ : List α} {a b e : α}
  {p : Cell η α} {q : Option α}

theorem mem_cells : p ∈ cells h l ↔ p = .head h ∨ ∃ a ∈ l, p = .elm a := by
  simp [cells, eq_comm]

theorem elm_mem_cells : Cell.elm a ∈ cells h l ↔ a ∈ l := by
  simp [cells]

theorem nodup_cells (hl : l.Nodup) : (cells h l).Nodup := by
  refine List.nodup_cons.mpr ⟨by simp, hl.map ?_⟩
  intro a b hab
  exact Cell.elm.inj hab

/-- The seams around a part of a list do not depend on the part. -/
theorem exists_seams (p : Cell η α) (l₁ l₂ : List α) : ∃ s t, ∀ l, seams p none (l₁ ++ (l ++ l₂)) =
    s ++ (seams (lastCell p l₁) l₂.head? l ++ t) := by
  have htail : ∃ t, ∀ (p : Cell η α) l, seams p none (l ++ l₂) = seams p l₂.head? l ++ t := by
    cases l₂ with
    | nil => exact ⟨[], by simp⟩
    | cons b l₂ =>
      refine ⟨seams (.elm b) none l₂, fun p l => ?_⟩
      induction l generalizing p with
      | nil => rfl
      | cons a l ih => exact congrArg ((p, some a) :: ·) (ih (.elm a))
  obtain ⟨t, ht⟩ := htail
  induction l₁ generalizing p with
  | nil => exact ⟨[], t, fun l => ht p l⟩
  | cons a l₁ ih =>
    obtain ⟨s, t, h⟩ := ih (.elm a)
    exact ⟨(p, some a) :: s, t, fun l => congrArg ((p, some a) :: ·) (h l)⟩

theorem map_fst_seams : (seams p q l).map Prod.fst = p :: l.map .elm := by
  induction l generalizing p with
  | nil => rfl
  | cons a l ih => simp [seams, ih]

theorem map_rear_seams : (seams p q l).map (fun x => rear h x.2) = l.map .elm ++ [rear h q] := by
  induction l generalizing p with
  | nil => rfl
  | cons a l ih => simp [seams, ih]

theorem fst_mem_seams {x : Cell η α × Option α} (hx : x ∈ seams p q l) : x.1 = p ∨ ∃ a ∈ l, x.1 = .elm a := by
  have hmem : x.1 ∈ (seams p q l).map Prod.fst := List.mem_map_of_mem hx
  rw [map_fst_seams] at hmem
  simpa [eq_comm] using hmem

theorem rear_mem_seams {x : Cell η α × Option α} (hx : x ∈ seams p q l) :
    rear h x.2 = rear h q ∨ ∃ a ∈ l, rear h x.2 = .elm a := by
  have hmem : rear h x.2 ∈ (seams p q l).map fun x => rear h x.2 :=
    List.mem_map_of_mem (f := fun x => rear h x.2) hx
  rw [map_rear_seams] at hmem
  simpa [eq_comm, or_comm] using hmem

theorem snd_mem_seams {x : Cell η α × Option α} (hx : x ∈ seams p none l) :
    (x.2 = none ∧ x.1 = lastCell p l) ∨ ∃ b ∈ l, x.2 = some b := by
  induction l generalizing p with
  | nil =>
    obtain rfl := List.mem_singleton.mp hx
    exact .inl ⟨rfl, rfl⟩
  | cons a l ih =>
    obtain rfl | hx := List.mem_cons.mp hx
    · exact .inr ⟨a, List.mem_cons_self .., rfl⟩
    · exact (ih hx).imp id fun ⟨b, hb, hxb⟩ => ⟨b, List.mem_cons_of_mem _ hb, hxb⟩

/-- The seams outside of a part of a list are at other cells. -/
theorem notMem_of_outside {s t : List (Cell η α × Option α)} {x : Cell η α × Option α} (hl : l.Nodup)
    (hs : seams (.head h) none l = s ++ (seams p q l' ++ t)) (hx : x ∈ s ++ t) :
    x.1 ∉ p :: l'.map .elm ∧ rear h x.2 ∉ l'.map .elm ++ [rear h q] := by
  have hother : ∀ f : Cell η α × Option α → Cell η α, ((seams (.head h) none l).map f).Nodup →
      f x ∉ (seams p q l').map f := by
    intro f hnodup hmem
    rw [hs, List.map_append, List.map_append] at hnodup
    obtain ⟨-, hrt, hdisj⟩ := List.nodup_append'.mp hnodup
    obtain ⟨-, -, hdisj'⟩ := List.nodup_append'.mp hrt
    obtain hx | hx := List.mem_append.mp hx
    · exact hdisj (List.mem_map_of_mem hx) (List.mem_append_left _ hmem)
    · exact hdisj' hmem (List.mem_map_of_mem hx)
  constructor
  · have hfst := hother Prod.fst
    rw [map_fst_seams, map_fst_seams] at hfst
    exact hfst (nodup_cells hl)
  · have hrear := hother fun x => rear h x.2
    rw [map_rear_seams, map_rear_seams] at hrear
    exact hrear (List.nodup_append_comm.mp (nodup_cells hl))

theorem lastCell_concat : lastCell p (l ++ [a]) = .elm a := by
  induction l generalizing p with
  | nil => rfl
  | cons b l ih => exact ih

theorem lastCell_mem : lastCell (.head h) l ∈ cells h l := by
  rcases List.eq_nil_or_concat l with rfl | ⟨l, a, rfl⟩
  · exact List.mem_cons_self ..
  · rw [List.concat_eq_append, lastCell_concat]
    exact elm_mem_cells.mpr (by simp)

theorem lastCell_mem_append : lastCell (.head h) l₁ ∈ cells h (l₁ ++ l₂) := by
  obtain heq | ⟨a, ha, heq⟩ := mem_cells.mp (lastCell_mem (h := h) (l := l₁))
  · exact mem_cells.mpr (.inl heq)
  · exact mem_cells.mpr (.inr ⟨a, List.mem_append_left _ ha, heq⟩)

theorem rear_mem_cells (hl : ∀ b ∈ l', b ∈ l) : rear h l'.head? ∈ cells h l := by
  cases l' with
  | nil => exact mem_cells.mpr (.inl rfl)
  | cons b l' => exact elm_mem_cells.mpr (hl b (List.mem_cons_self ..))

theorem lastCell_ne_elm (he : e ∉ l) : lastCell (.head h) l ≠ .elm e := by
  intro heq
  exact he (elm_mem_cells.mp (heq ▸ lastCell_mem))

theorem rear_ne_elm (he : e ∉ l) : rear h l.head? ≠ .elm e := by
  intro heq
  exact he (elm_mem_cells.mp (heq ▸ rear_mem_cells (h := h) fun b hb => hb))

namespace Chain

theorem nil (hnext : m.next (.head h) = none) (hback : keeps (.head h) → m.back (.head h) = .head h) :
    Chain keeps m h [] where
  joined x hx := by
    obtain rfl := List.mem_singleton.mp hx
    exact ⟨hnext, hback⟩
  nodup := List.nodup_nil

/-- Only the cells of the list matter. -/
theorem congr (hc : Chain keeps m h l) (hnext : ∀ p ∈ cells h l, m'.next p = m.next p)
    (hback : ∀ p ∈ cells h l, keeps p → m'.back p = m.back p) : Chain keeps m' h l where
  joined x hx := by
    obtain ⟨hn, hb⟩ := hc.joined x hx
    refine ⟨(hnext _ ?_).trans hn, fun hkeeps => (hback _ ?_ hkeeps).trans (hb hkeeps)⟩
    · exact mem_cells.mpr (fst_mem_seams hx)
    · exact mem_cells.mpr (rear_mem_seams hx)
  nodup := hc.nodup

/-- A part `l` of a list is replaced by `l'`. What is written is the pointer that leads to the part,
the one that leads back to it, and the pointers of the elements of the two parts. -/
theorem splice (hc : Chain keeps m h (l₁ ++ (l ++ l₂))) (hnodup : (l₁ ++ (l' ++ l₂)).Nodup)
    (hnew : ∀ x ∈ seams (lastCell (.head h) l₁) l₂.head? l', Joined keeps m' h x.1 x.2)
    (hnext : ∀ p ∈ cells h (l₁ ++ (l ++ l₂)), p ≠ lastCell (.head h) l₁ →
      (∀ a, a ∈ l ∨ a ∈ l' → p ≠ .elm a) → m'.next p = m.next p)
    (hback : ∀ p ∈ cells h (l₁ ++ (l ++ l₂)), p ≠ rear h l₂.head? →
      (∀ a, a ∈ l ∨ a ∈ l' → p ≠ .elm a) → m'.back p = m.back p) : Chain keeps m' h (l₁ ++ (l' ++ l₂)) where
  joined x hx := by
    obtain ⟨s, t, hs⟩ := exists_seams (Cell.head h) l₁ l₂
    rw [hs] at hx
    obtain hx | hx : x ∈ seams (lastCell (.head h) l₁) l₂.head? l' ∨ x ∈ s ++ t := by
      simp only [List.mem_append] at hx ⊢
      tauto
    · exact hnew x hx
    · -- a seam that was there, away from both parts
      have hold : x ∈ seams (.head h) none (l₁ ++ (l ++ l₂)) := by
        rw [hs]
        simp only [List.mem_append] at hx ⊢
        tauto
      obtain ⟨hfst, hrear⟩ := notMem_of_outside hc.nodup (hs l) hx
      obtain ⟨hfst', hrear'⟩ := notMem_of_outside hnodup (hs l') hx
      simp only [List.mem_cons, List.mem_append, List.mem_map, List.mem_nil_iff, or_false, not_or,
        not_exists, not_and] at hfst hrear hfst' hrear'
      obtain ⟨hn, hb⟩ := hc.joined x hold
      have hmem : x.1 ∈ cells h (l₁ ++ (l ++ l₂)) := mem_cells.mpr (fst_mem_seams hold)
      have hmem' : rear h x.2 ∈ cells h (l₁ ++ (l ++ l₂)) := mem_cells.mpr (rear_mem_seams hold)
      refine ⟨(hnext _ hmem hfst.1 ?_).trans hn, fun hkeeps =>
        (hback _ hmem' hrear.2 ?_).trans (hb hkeeps)⟩
      · rintro a (ha | ha) heq
        · exact hfst.2 a ha heq.symm
        · exact hfst'.2 a ha heq.symm
      · rintro a (ha | ha) heq
        · exact hrear.1 a ha heq.symm
        · exact hrear'.1 a ha heq.symm
  nodup := hnodup

/-- The element `e` is put where a part `l` of the list was, or just in between. -/
theorem put (hc : Chain keeps m h (l₁ ++ (l ++ l₂))) (he : e ∉ l₁ ++ l₂)
    (hp : m'.next (lastCell (.head h) l₁) = some e) (hpback : keeps (.elm e) → m'.back (.elm e) = lastCell (.head h) l₁)
    (hq : m'.next (.elm e) = l₂.head?) (hqback : keeps (rear h l₂.head?) → m'.back (rear h l₂.head?) = .elm e)
    (hnext : ∀ r, r ≠ lastCell (.head h) l₁ → r ≠ .elm e → m'.next r = m.next r)
    (hback : ∀ r, r ≠ rear h l₂.head? → r ≠ .elm e → m'.back r = m.back r) :
    Chain keeps m' h (l₁ ++ e :: l₂) ∧ ∀ r, r ∉ cells h (l₁ ++ e :: l₂) → Same m m' r := by
  constructor
  · show Chain keeps m' h (l₁ ++ ([e] ++ l₂))
    refine hc.splice ?_ ?_ ?_ ?_
    · have hsub : (l₁ ++ l₂).Sublist (l₁ ++ (l ++ l₂)) := List.Sublist.append_left (List.sublist_append_right ..) l₁
      exact List.nodup_middle.mpr (List.nodup_cons.mpr ⟨he, hc.nodup.sublist hsub⟩)
    · intro x hx
      obtain rfl | rfl : x = (lastCell (.head h) l₁, some e) ∨ x = (.elm e, l₂.head?) := by
        simpa [seams] using hx
      · exact ⟨hp, hpback⟩
      · exact ⟨hq, hqback⟩
    · intro r _ hr hparts
      exact hnext r hr (hparts e (.inr (List.mem_singleton_self e)))
    · intro r _ hr hparts
      exact hback r hr (hparts e (.inr (List.mem_singleton_self e)))
  · intro r hr
    have hre : r ≠ .elm e := fun heq => hr (heq ▸ elm_mem_cells.mpr (by simp))
    refine ⟨hnext r (fun heq => hr ?_) hre, hback r (fun heq => hr ?_) hre⟩
    · exact heq ▸ lastCell_mem_append
    · exact heq ▸ rear_mem_cells fun b hb => by simp [hb]

/-- The element `a` is left out. Its own pointers do not matter. -/
theorem leave (hc : Chain keeps m h (l₁ ++ a :: l₂)) (hp : m'.next (lastCell (.head h) l₁) = l₂.head?)
    (hpback : keeps (rear h l₂.head?) → m'.back (rear h l₂.head?) = lastCell (.head h) l₁)
    (hnext : ∀ r, r ≠ lastCell (.head h) l₁ → r ≠ .elm a → m'.next r = m.next r)
    (hback : ∀ r, r ≠ rear h l₂.head? → r ≠ .elm a → m'.back r = m.back r) :
    Chain keeps m' h (l₁ ++ l₂) ∧ ∀ r, r ∉ cells h (l₁ ++ a :: l₂) → Same m m' r := by
  constructor
  · have hpart : Chain keeps m h (l₁ ++ ([a] ++ l₂)) := hc
    show Chain keeps m' h (l₁ ++ ([] ++ l₂))
    refine hpart.splice ?_ ?_ ?_ ?_
    · exact (List.nodup_cons.mp (List.nodup_middle.mp hc.nodup)).2
    · intro x hx
      obtain rfl := List.mem_singleton.mp hx
      exact ⟨hp, hpback⟩
    · intro r _ hr hparts
      exact hnext r hr (hparts a (.inl (List.mem_singleton_self a)))
    · intro r _ hr hparts
      exact hback r hr (hparts a (.inl (List.mem_singleton_self a)))
  · intro r hr
    have hra : r ≠ .elm a := fun heq => hr (heq ▸ elm_mem_cells.mpr (by simp))
    refine ⟨hnext r (fun heq => hr ?_) hra, hback r (fun heq => hr ?_) hra⟩
    · exact heq ▸ lastCell_mem_append
    · exact heq ▸ rear_mem_cells fun b hb => by simp [hb]

/-- A list that is at another head is put behind the end. -/
theorem append (hc : Chain keeps m h l) (hc' : Chain keeps m h' (a :: l')) (hdisj : l.Disjoint (a :: l'))
    (hp : m'.next (lastCell (.head h) l) = some a) (hpback : keeps (.elm a) → m'.back (.elm a) = lastCell (.head h) l)
    (hqback : keeps (.head h) → m'.back (.head h) = lastCell (.head h') (a :: l'))
    (hnext : ∀ r, r ≠ lastCell (.head h) l → r ≠ .head h' → m'.next r = m.next r)
    (hback : ∀ r, r ≠ .head h → r ≠ .head h' → r ≠ .elm a → m'.back r = m.back r) (hne : h ≠ h') :
    Chain keeps m' h (l ++ a :: l') := by
  have hall : Chain keeps m h (l ++ ([] ++ [])) := by
    rw [List.append_nil, List.append_nil]
    exact hc
  have hall' : l ++ a :: l' = l ++ (a :: l' ++ []) := by rw [List.append_nil]
  rw [hall']
  refine hall.splice ?_ ?_ ?_ ?_
  · rw [List.append_nil]
    exact List.nodup_append'.mpr ⟨hc.nodup, hc'.nodup, hdisj⟩
  · intro x hx
    obtain rfl | hx := List.mem_cons.mp hx
    · exact ⟨hp, hpback⟩
    · -- a seam of the second list
      have hxl : x ∈ seams (.head h') none (a :: l') := List.mem_cons_of_mem _ hx
      obtain ⟨hn, hb⟩ := hc'.joined x hxl
      obtain ⟨b, hbl, hxb⟩ : ∃ b ∈ a :: l', x.1 = .elm b := by
        obtain hx | ⟨b, hb, hxb⟩ := fst_mem_seams hx
        · exact ⟨a, List.mem_cons_self .., hx⟩
        · exact ⟨b, List.mem_cons_of_mem _ hb, hxb⟩
      constructor
      · refine (hnext _ (fun heq => ?_) (by simp [hxb])).trans hn
        have hmem : x.1 ∈ cells h l := heq ▸ lastCell_mem
        exact hdisj (elm_mem_cells.mp (hxb ▸ hmem)) hbl
      · obtain ⟨hnone, hx⟩ | ⟨c, hc, hsome⟩ := snd_mem_seams hx
        · rw [hnone, hx]
          exact hqback
        · have hca : c ≠ a := fun heq => (List.nodup_cons.mp hc'.nodup).1 (heq ▸ hc)
          rw [hsome] at hb ⊢
          intro hkeeps
          exact (hback _ (by simp) (by simp) (by simp [hca])).trans (hb hkeeps)
  · intro r hr hlast _
    refine hnext r hlast ?_
    rintro rfl
    obtain heq | ⟨b, -, heq⟩ := mem_cells.mp hr
    · exact hne (Cell.head.inj heq).symm
    · cases heq
  · intro r hr hhead hparts
    refine hback r hhead ?_ (hparts a (.inr (List.mem_cons_self ..)))
    rintro rfl
    obtain heq | ⟨b, -, heq⟩ := mem_cells.mp hr
    · exact hne (Cell.head.inj heq).symm
    · cases heq

/-- The pointers where a list is cut. -/
theorem cut (hc : Chain keeps m h (l₁ ++ l₂)) : Joined keeps m h (lastCell (.head h) l₁) l₂.head? := by
  obtain ⟨s, t, hs⟩ := exists_seams (Cell.head h) l₁ l₂
  refine hc.joined (lastCell (.head h) l₁, l₂.head?) ?_
  have hmem := hs []
  rw [List.nil_append] at hmem
  rw [hmem]
  simp [seams]

/-- The pointer of an element. -/
theorem next_elm (hc : Chain keeps m h (l₁ ++ a :: l₂)) : m.next (.elm a) = l₂.head? := by
  rw [List.append_cons] at hc
  have hnext := hc.cut.next
  rwa [lastCell_concat] at hnext

theorem rear_ne_elm_of_cut (hc : Chain keeps m h (l₁ ++ a :: l₂)) : rear h l₂.head? ≠ .elm a :=
  rear_ne_elm (List.nodup_cons.mp (List.nodup_append'.mp hc.nodup).2.1).1

/-- The cell that the back pointer leads to knows the element before the place. -/
theorem next_back_lastCell (hc : Chain keeps m h (l₁ ++ l₂)) (hkeeps : ∀ p, keeps p) :
    m.next (m.back (lastCell (.head h) l₁)) = l₁.getLast? := by
  rcases List.eq_nil_or_concat l₁ with rfl | ⟨l, a, rfl⟩
  · have hend : Chain keeps m h (l₂ ++ []) := by rwa [List.append_nil]
    have hlast : Joined keeps m h (lastCell (.head h) l₂) none := hend.cut
    show m.next (m.back (rear h none)) = none
    rw [hlast.back (hkeeps _), hlast.next]
  · rw [List.concat_eq_append, List.append_assoc] at hc
    have hbefore : Joined keeps m h (lastCell (.head h) l) (some a) := hc.cut
    rw [List.concat_eq_append, lastCell_concat, List.getLast?_concat]
    show m.next (m.back (rear h (some a))) = some a
    rw [hbefore.back (hkeeps _), hbefore.next]

/-- The element before the place whose back pointer is followed, and once more. -/
theorem next_back_back (hc : Chain keeps m h (l₁ ++ l₂)) (hkeeps : ∀ p, keeps p) :
    m.next (m.back (m.back (rear h l₂.head?))) = l₁.getLast? := by
  rw [hc.cut.back (hkeeps _)]
  exact hc.next_back_lastCell hkeeps

end Chain

/-! ### Walks -/

/-- The elements from `x` on, with at most `k` steps. -/
def visit (step : α → Option α) : ℕ → Option α → Option (List α)
  | _, none => some []
  | 0, some _ => none
  | k + 1, some x => (visit step k (step x)).map (x :: ·)

theorem visit_eq {step : α → Option α} {k : ℕ} (hk : l.length ≤ k)
    (hstep : ∀ l₁ a l₂, l = l₁ ++ a :: l₂ → step a = l₂.head?) : visit step k l.head? = some l := by
  induction l generalizing k with
  | nil =>
    cases k <;> rfl
  | cons a l ih =>
    rw [List.length_cons] at hk
    obtain ⟨k, rfl⟩ := Nat.exists_eq_add_one_of_ne_zero (n := k) (by omega)
    have hrest := ih (k := k) (by omega) fun l₁ b l₂ hl => hstep (a :: l₁) b l₂ (by rw [hl]; rfl)
    show (visit step k (step a)).map (a :: ·) = _
    rw [hstep [] a l rfl, hrest]
    rfl

namespace Chain

/-- The walk behind the next pointers. -/
theorem visit_next (hc : Chain keeps m h l) {k : ℕ} (hk : l.length ≤ k) :
    visit (fun a => m.next (.elm a)) k (m.next (.head h)) = some l := by
  have hall : Chain keeps m h ([] ++ l) := hc
  have hfirst : m.next (.head h) = l.head? := hall.cut.next
  rw [hfirst]
  refine visit_eq hk fun l₁ a l₂ hl => ?_
  rw [hl] at hc
  exact hc.next_elm

/-- The walk behind the back pointers. -/
theorem visit_back (hc : Chain keeps m h l) (hkeeps : ∀ p, keeps p) {k : ℕ} (hk : l.length ≤ k) :
    visit (fun a => m.next (m.back (m.back (.elm a)))) k (m.next (m.back (m.back (.head h)))) =
      some l.reverse := by
  have hback : ∀ l₁ l₂, l = l₁ ++ l₂ → m.next (m.back (m.back (rear h l₂.head?))) = l₁.getLast? :=
    fun l₁ l₂ hl => next_back_back (hl ▸ hc) hkeeps
  have hlast : m.next (m.back (m.back (rear h none))) = l.getLast? := hback l [] (by simp)
  rw [List.getLast?_eq_head?_reverse] at hlast
  show visit _ k (m.next (m.back (m.back (rear h none)))) = _
  rw [hlast]
  refine visit_eq (by simpa using hk) fun l₁ a l₂ hl => ?_
  have hprev := hback l₂.reverse (a :: l₁.reverse) (by
    rw [← List.reverse_reverse l, hl]
    simp)
  rw [List.getLast?_reverse] at hprev
  exact hprev

end Chain

end MuslBsd.Support
