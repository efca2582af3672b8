import Mathlib.Data.List.Basic
import Mathlib.Data.List.TakeDrop

/-! Where the elements of a list are once some of them are removed. -/
namespace MuslBsd.Support

variable {α : Type} (p : α → Bool) (l : List α)

/-- How many elements are kept before position `i`: where the one at `i` goes, if it is kept. -/
def kept (i : ℕ) : ℕ := ((l.take i).filter p).length

theorem kept_cons (x : α) (i : ℕ) :
    kept p (x :: l) (i + 1) = kept p l i + if p x then 1 else 0 := by
  unfold kept
  rw [List.take_succ_cons, List.filter_cons]
  split
  · rw [List.length_cons]
  · rfl

variable {p l} {i j : ℕ} {a : α}

theorem kept_mono (h : i ≤ j) : kept p l i ≤ kept p l j := by
  have hbefore : l.take i <+: l.take j := List.take_prefix_take_left h
  exact (hbefore.filter p).length_le

theorem kept_succ (h : l[i]? = some a) :
    kept p l (i + 1) = kept p l i + if p a then 1 else 0 := by
  unfold kept
  rw [List.take_add_one, h, List.filter_append, List.length_append]
  cases ha : p a with
  | true => simp [ha]
  | false => simp [ha]

theorem kept_lt (h : l[i]? = some a) (ha : p a = true) (hij : i < j) :
    kept p l i < kept p l j := by
  have hstep := kept_succ (p := p) h
  rw [if_pos ha] at hstep
  have hmono := kept_mono (p := p) (l := l) (Nat.succ_le_of_lt hij)
  rw [Nat.succ_eq_add_one] at hmono
  omega

/-- Kept elements stay in order and apart. -/
theorem kept_injective {b : α} (h : l[i]? = some a) (ha : p a = true) (hb : l[j]? = some b)
    (hpb : p b = true) (heq : kept p l i = kept p l j) : i = j := by
  rcases Nat.lt_trichotomy i j with hlt | rfl | hgt
  · have hkept := kept_lt h ha hlt
    omega
  · rfl
  · have hkept := kept_lt hb hpb hgt
    omega

theorem getElem?_kept (h : l[i]? = some a) (ha : p a = true) :
    (l.filter p)[kept p l i]? = some a := by
  induction l generalizing i with
  | nil => cases h
  | cons x l ih =>
    cases i with
    | zero =>
      cases h
      rw [List.filter_cons, if_pos ha]
      rfl
    | succ i =>
      rw [kept_cons, List.filter_cons]
      split
      · rw [List.getElem?_cons_succ]
        exact ih h
      · exact ih h

/-- Each position that is left comes from one. -/
theorem exists_kept (h : (l.filter p)[j]? = some a) :
    ∃ i, l[i]? = some a ∧ p a = true ∧ kept p l i = j := by
  induction l generalizing j with
  | nil => cases h
  | cons x l ih =>
    rw [List.filter_cons] at h
    split at h
    · rename_i hx
      cases j with
      | zero =>
        cases h
        exact ⟨0, rfl, hx, rfl⟩
      | succ j =>
        obtain ⟨i, hi, ha, hkept⟩ := ih h
        refine ⟨i + 1, hi, ha, ?_⟩
        rw [kept_cons, if_pos hx, hkept]
    · rename_i hx
      obtain ⟨i, hi, ha, hkept⟩ := ih h
      refine ⟨i + 1, hi, ha, ?_⟩
      rw [kept_cons, if_neg hx, hkept, Nat.add_zero]

/-- A search that ends at an element that is kept ends there also in what is left. -/
theorem find?_filter_kept {q : α → Bool} (h : ∀ b, l.find? q = some b → p b = true) :
    (l.filter p).find? q = l.find? q := by
  induction l with
  | nil => rfl
  | cons x l ih =>
    rw [List.find?_cons] at h ⊢
    cases hq : q x with
    | true =>
      rw [hq] at h
      rw [List.filter_cons, if_pos (h x rfl), List.find?_cons, hq]
    | false =>
      rw [hq] at h
      rw [List.filter_cons]
      split
      · rw [List.find?_cons, hq]
        exact ih h
      · exact ih h

end MuslBsd.Support
