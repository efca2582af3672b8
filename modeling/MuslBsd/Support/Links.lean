import Mathlib.Data.List.Basic
import Mathlib.Data.List.Nodup
import Mathlib.Logic.Function.Basic

/-! Chains of cells in a memory: each cell holds the address of the next one, and the last one
holds null. -/
namespace MuslBsd.Support

variable {α : Type*} {next next' : α → α} {null c e x : α} {pre post l : List α}

/-- Each of the cells leads to the one behind it, and the last one to `null`. -/
def Threaded (next : α → α) (null : α) : List α → Prop
  | [] => True
  | c :: cs => next c = cs.headD null ∧ Threaded next null cs

/-- The cells from `a` on, as far as `null`. -/
def follow [DecidableEq α] (next : α → α) (null : α) : ℕ → α → Option (List α)
  | 0, a => if a = null then some [] else none
  | k + 1, a => if a = null then some [] else (follow next null k (next a)).map (a :: ·)

namespace Threaded

theorem congr (h : Threaded next null l) (hl : ∀ a ∈ l, next' a = next a) : Threaded next' null l := by
  induction l with
  | nil => trivial
  | cons a l ih =>
    have hhead : next' a = next a := hl a (List.mem_cons_self ..)
    have htail := ih h.2 fun b hb => hl b (List.mem_cons_of_mem _ hb)
    exact ⟨hhead.trans h.1, htail⟩

/-- What a cell holds is decided by what stands behind it. -/
theorem next_eq (h : Threaded next null (pre ++ c :: post)) : next c = post.headD null := by
  induction pre with
  | nil => exact h.1
  | cons p pre ih => exact ih h.2

/-- A new cell `e` behind the cell `c`. -/
theorem insert (h : Threaded next null (pre ++ c :: post)) (hnodup : (pre ++ c :: post).Nodup)
    (hnew : e ∉ pre ++ c :: post) (he : next' e = next c) (hc : next' c = e)
    (hrest : ∀ a, a ≠ c → a ≠ e → next' a = next a) : Threaded next' null (pre ++ c :: e :: post) := by
  induction pre with
  | nil =>
    have hpost : Threaded next' null post := by
      apply h.2.congr
      intro a ha
      have hac : a ≠ c := fun heq => (List.nodup_cons.mp hnodup).1 (heq ▸ ha)
      have hae : a ≠ e := fun heq => hnew (heq ▸ List.mem_cons_of_mem _ ha)
      exact hrest a hac hae
    exact ⟨hc, he.trans h.1, hpost⟩
  | cons p pre ih =>
    have hnodup' := (List.nodup_cons.mp hnodup).2
    have hpc : p ≠ c := by
      intro heq
      apply (List.nodup_cons.mp hnodup).1
      rw [heq]
      simp
    have hpe : p ≠ e := fun heq => hnew (heq ▸ List.mem_cons_self ..)
    have hhead : (pre ++ c :: e :: post).headD null = (pre ++ c :: post).headD null := by
      cases pre with
      | nil => rfl
      | cons q pre => rfl
    refine ⟨?_, ih h.2 hnodup' fun hmem => hnew (List.mem_cons_of_mem _ hmem)⟩
    rw [hrest p hpc hpe, h.1]
    exact hhead.symm

/-- The cell behind the cell `c` goes. -/
theorem remove (h : Threaded next null (pre ++ c :: x :: post))
    (hnodup : (pre ++ c :: x :: post).Nodup) (hc : next' c = next x)
    (hrest : ∀ a, a ≠ c → next' a = next a) : Threaded next' null (pre ++ c :: post) := by
  induction pre with
  | nil =>
    have hpost : Threaded next' null post := by
      apply h.2.2.congr
      intro a ha
      have hac : a ≠ c := by
        intro heq
        apply (List.nodup_cons.mp hnodup).1
        exact heq ▸ List.mem_cons_of_mem _ ha
      exact hrest a hac
    exact ⟨hc.trans h.2.1, hpost⟩
  | cons p pre ih =>
    have hpc : p ≠ c := by
      intro heq
      apply (List.nodup_cons.mp hnodup).1
      rw [heq]
      simp
    have hhead : (pre ++ c :: x :: post).headD null = (pre ++ c :: post).headD null := by
      cases pre with
      | nil => rfl
      | cons q pre => rfl
    refine ⟨?_, ih h.2 (List.nodup_cons.mp hnodup).2⟩
    rw [hrest p hpc, h.1]
    exact hhead

/-- A walk along the cells meets all of them, and ends. -/
theorem follow_eq [DecidableEq α] (h : Threaded next null l) (hnull : null ∉ l) {k : ℕ}
    (hk : l.length ≤ k) : follow next null k (l.headD null) = some l := by
  induction l generalizing k with
  | nil =>
    cases k with
    | zero => exact if_pos rfl
    | succ k => exact if_pos rfl
  | cons a l ih =>
    cases k with
    | zero => simp at hk
    | succ k =>
      have hne : ¬a = null := fun heq => hnull (heq ▸ List.mem_cons_self ..)
      have hrest := ih h.2 (fun hmem => hnull (List.mem_cons_of_mem _ hmem))
        (Nat.le_of_succ_le_succ hk)
      show follow next null (k + 1) a = some (a :: l)
      unfold follow
      rw [if_neg hne, h.1, hrest]
      rfl

end Threaded

end MuslBsd.Support
