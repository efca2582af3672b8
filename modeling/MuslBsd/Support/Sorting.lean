import Mathlib.Data.List.Perm.Subperm
import Mathlib.Data.Int.Notation
import Mathlib.Data.List.Sort

/-! Comparison functions in the manner of C, and what `qsort` does with them. -/
namespace MuslBsd.Support
open List

variable {α : Type*} {cmp : α → α → ℤ} {xs ys : List α}

/-- `cmp` is what `qsort` asks for, on the elements of `xs`. -/
structure Consistent (cmp : α → α → ℤ) (xs : List α) : Prop where
  antisymm : ∀ x ∈ xs, ∀ y ∈ xs, (cmp x y).sign = -(cmp y x).sign
  trans : ∀ x ∈ xs, ∀ y ∈ xs, ∀ z ∈ xs, cmp x y ≤ 0 → cmp y z ≤ 0 → cmp x z ≤ 0

/-- `qsort` may make `ys` of `xs`: it promises an order only for a consistent comparison, and
nothing about elements that compare equal. -/
def MaySort (cmp : α → α → ℤ) (xs ys : List α) : Prop :=
  ys ~ xs ∧ (Consistent cmp xs → ys.Pairwise fun x y => cmp x y ≤ 0)

theorem neg_iff_of_sign {a b : ℤ} (h : a.sign = -b.sign) : (a < 0 ↔ 0 < b) ∧ (a = 0 ↔ b = 0) := by
  rcases lt_trichotomy a 0 with ha | ha | ha <;> rcases lt_trichotomy b 0 with hb | hb | hb <;>
    simp only [Int.sign_eq_neg_one_of_neg, Int.sign_eq_one_of_pos, Int.sign_zero, ha, hb] at h <;> omega

theorem sign_eq_neg_of {a b : ℤ} (hlt : a < 0 ↔ 0 < b) (heq : a = 0 ↔ b = 0) : a.sign = -b.sign := by
  rcases lt_trichotomy a 0 with ha | ha | ha
  · rw [Int.sign_eq_neg_one_of_neg ha, Int.sign_eq_one_of_pos (hlt.mp ha)]
  · rw [ha, heq.mp ha]
    rfl
  · rw [Int.sign_eq_one_of_pos ha, Int.sign_eq_neg_one_of_neg (by omega)]
    rfl

namespace Consistent

variable (h : Consistent cmp xs)
include h

theorem lt_iff {x y : α} (hx : x ∈ xs) (hy : y ∈ xs) : cmp x y < 0 ↔ 0 < cmp y x :=
  (neg_iff_of_sign (h.antisymm x hx y hy)).1

theorem eq_iff {x y : α} (hx : x ∈ xs) (hy : y ∈ xs) : cmp x y = 0 ↔ cmp y x = 0 :=
  (neg_iff_of_sign (h.antisymm x hx y hy)).2

theorem total {x y : α} (hx : x ∈ xs) (hy : y ∈ xs) : cmp x y ≤ 0 ∨ cmp y x ≤ 0 := by
  have hlt := h.lt_iff hx hy
  omega

theorem le_iff {x y : α} (hx : x ∈ xs) (hy : y ∈ xs) : cmp x y ≤ 0 ↔ 0 ≤ cmp y x := by
  have hlt := h.lt_iff hy hx
  omega

theorem self {x : α} (hx : x ∈ xs) : cmp x x = 0 := by
  have hlt := h.lt_iff hx hx
  omega

theorem lt_trans {x y z : α} (hx : x ∈ xs) (hy : y ∈ xs) (hz : z ∈ xs) (hxy : cmp x y < 0)
    (hyz : cmp y z < 0) : cmp x z < 0 := by
  have hle := h.trans x hx y hy z hz (by omega) (by omega)
  have hback : ¬cmp z x ≤ 0 := by
    intro hzx
    have hyx := h.trans y hy z hz x hx (by omega) hzx
    have hlt := h.lt_iff hx hy
    omega
  have hlt := h.lt_iff hx hz
  omega

/-- Elements that compare equal stand to every element alike. -/
theorem sign_congr {x y z : α} (hx : x ∈ xs) (hy : y ∈ xs) (hz : z ∈ xs) (hxy : cmp x y = 0) :
    (cmp x z).sign = (cmp y z).sign := by
  have hyx := (h.eq_iff hx hy).mp hxy
  have hle : cmp x z ≤ 0 ↔ cmp y z ≤ 0 :=
    ⟨fun hxz => h.trans y hy x hx z hz (by omega) hxz,
      fun hyz => h.trans x hx y hy z hz (by omega) hyz⟩
  have hge : cmp z x ≤ 0 ↔ cmp z y ≤ 0 :=
    ⟨fun hzx => h.trans z hz x hx y hy hzx (by omega),
      fun hzy => h.trans z hz y hy x hx hzy (by omega)⟩
  rw [h.le_iff hz hx, h.le_iff hz hy] at hge
  rcases lt_trichotomy (cmp x z) 0 with hlt | heq | hgt
  · rw [Int.sign_eq_neg_one_of_neg hlt, Int.sign_eq_neg_one_of_neg (by omega)]
  · rw [heq, show cmp y z = 0 by omega]
  · rw [Int.sign_eq_one_of_pos hgt, Int.sign_eq_one_of_pos (by omega)]

theorem of_subset (hsub : ys ⊆ xs) : Consistent cmp ys where
  antisymm x hx y hy := h.antisymm x (hsub hx) y (hsub hy)
  trans x hx y hy z hz := h.trans x (hsub hx) y (hsub hy) z (hsub hz)

/-- A sorted permutation exists. -/
theorem exists_sorted : ∃ ys, ys ~ xs ∧ (ys.Pairwise fun x y => cmp x y ≤ 0) ∧
    ∀ {c : List α}, (c.Pairwise fun x y => cmp x y ≤ 0) → c <+ xs → c <+ ys := by
  let le : {x // x ∈ xs} → {x // x ∈ xs} → Bool := fun x y => decide (cmp x.1 y.1 ≤ 0)
  have htrans : ∀ a b c, le a b → le b c → le a c := by
    intro a b c hab hbc
    exact decide_eq_true (h.trans _ a.2 _ b.2 _ c.2 (of_decide_eq_true hab) (of_decide_eq_true hbc))
  have htotal : ∀ a b, le a b || le b a := by
    intro a b
    rcases h.total a.2 b.2 with hab | hba
    · simp [le, hab]
    · simp [le, hba]
  have hsorted := List.pairwise_mergeSort htrans htotal xs.attach
  refine ⟨(xs.attach.mergeSort le).map Subtype.val, ?_, ?_, ?_⟩
  · have hperm := (List.mergeSort_perm xs.attach le).map Subtype.val
    rwa [List.attach_map_subtype_val] at hperm
  · exact List.pairwise_map.mpr (hsorted.imp fun hab => of_decide_eq_true hab)
  · intro c hc hsub
    rw [← List.attach_map_subtype_val xs] at hsub
    obtain ⟨c', hsub', rfl⟩ := List.sublist_map_iff.mp hsub
    have hc' : c'.Pairwise fun a b => le a b = true :=
      (List.pairwise_map.mp hc).imp fun hab => decide_eq_true hab
    exact (List.sublist_mergeSort htrans htotal hc' hsub').map Subtype.val

end Consistent

/-- What is in order if there is one may come out in this order. -/
theorem exists_maySort {c : List α} (hc : Consistent cmp xs → c.Pairwise fun x y => cmp x y ≤ 0)
    (hsub : c <+~ xs) : ∃ ys, MaySort cmp xs ys ∧ c <+ ys := by
  obtain ⟨l, hl, hsub⟩ := hsub
  obtain ⟨rest, hrest⟩ := hsub.exists_perm_append
  have hperm : xs ~ c ++ rest := hrest.trans (hl.append_right rest)
  by_cases h : Consistent cmp xs
  · have h' : Consistent cmp (c ++ rest) := h.of_subset hperm.symm.subset
    obtain ⟨ys, hys, hsorted, hkeeps⟩ := h'.exists_sorted
    exact ⟨ys, ⟨hys.trans hperm.symm, fun _ => hsorted⟩, hkeeps (hc h) (List.sublist_append_left c rest)⟩
  · exact ⟨c ++ rest, ⟨hperm.symm, fun hbad => (h hbad).elim⟩, List.sublist_append_left c rest⟩

end MuslBsd.Support
