import Mathlib.Data.List.Basic

/-! Lists that stand at an offset of a longer list. -/
namespace MuslBsd.Support

variable {α β : Type} {xs ys as bs : List α} {offset : ℕ}

/-- `ys` stands at `offset` of `xs`, whatever is in front of it and behind it. -/
def Placed (xs : List α) (offset : ℕ) (ys : List α) : Prop :=
  ∃ before after, xs = before ++ ys ++ after ∧ before.length = offset

theorem placed_iff : Placed xs offset ys ↔
    offset ≤ xs.length ∧ (xs.drop offset).take ys.length = ys := by
  constructor
  · intro h
    obtain ⟨before, after, rfl, rfl⟩ := h
    refine ⟨by simp only [List.length_append]; omega, ?_⟩
    rw [List.append_assoc, List.drop_left, List.take_left]
  · intro h
    obtain ⟨hle, htake⟩ := h
    refine ⟨xs.take offset, (xs.drop offset).drop ys.length, ?_, List.length_take_of_le hle⟩
    calc xs = xs.take offset ++ xs.drop offset := (List.take_append_drop ..).symm
      _ = xs.take offset ++ (ys ++ (xs.drop offset).drop ys.length) := by
        rw [← List.take_append_drop ys.length (xs.drop offset), htake, List.drop_left]
      _ = _ := (List.append_assoc ..).symm

instance [DecidableEq α] : Decidable (Placed xs offset ys) := decidable_of_iff _ placed_iff.symm

namespace Placed

theorem stop_le (h : Placed xs offset ys) : offset + ys.length ≤ xs.length := by
  obtain ⟨before, after, rfl, rfl⟩ := h
  simp only [List.length_append]
  omega

theorem take_drop (h : Placed xs offset ys) : (xs.drop offset).take ys.length = ys :=
  (placed_iff.mp h).2

theorem left (h : Placed xs offset (as ++ bs)) : Placed xs offset as := by
  obtain ⟨before, after, rfl, rfl⟩ := h
  exact ⟨before, bs ++ after, by simp only [List.append_assoc], rfl⟩

theorem right (h : Placed xs offset (as ++ bs)) : Placed xs (offset + as.length) bs := by
  obtain ⟨before, after, rfl, rfl⟩ := h
  exact ⟨before ++ as, after, by simp only [List.append_assoc], List.length_append⟩

/-- A table of rows of one width: each row stands where its number says. -/
theorem row {rows : List β} {f : β → List α} {width k : ℕ} {b : β}
    (h : Placed xs offset (rows.flatMap f)) (hwidth : ∀ b, (f b).length = width)
    (hb : rows[k]? = some b) : Placed xs (offset + k * width) (f b) := by
  induction rows generalizing offset k with
  | nil => simp at hb
  | cons c rows ih =>
    rw [List.flatMap_cons] at h
    cases k with
    | zero =>
      obtain rfl : c = b := Option.some.inj hb
      rw [Nat.zero_mul, Nat.add_zero]
      exact h.left
    | succ k =>
      have hrest := ih h.right hb
      rw [hwidth] at hrest
      have hoffset : offset + width + k * width = offset + (k + 1) * width := by
        rw [Nat.succ_mul]
        omega
      rwa [hoffset] at hrest

end Placed

theorem length_flatMap_width {rows : List β} {f : β → List α} {width : ℕ}
    (hwidth : ∀ b, (f b).length = width) : (rows.flatMap f).length = rows.length * width := by
  simp only [List.length_flatMap, hwidth, List.map_const', List.sum_replicate_nat]

/-- Entries that are linked by their distances, which are `least` or more; behind the last entry
the distance may also be zero. -/
inductive Linked (least : ℕ) (At : ℕ → ℕ → β → Prop) : ℕ → List β → Prop
  | nil {offset : ℕ} : Linked least At offset []
  | cons {offset link : ℕ} {b : β} {rest : List β} (hat : At offset link b)
    (hlink : least ≤ link ∨ rest = [] ∧ link = 0) (hrest : Linked least At (offset + link) rest) :
    Linked least At offset (b :: rest)

end MuslBsd.Support
