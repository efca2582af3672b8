import Mathlib.Data.List.Basic
import Mathlib.Data.List.Induction

/-! Exchanging two adjacent segments of a list in place, by swaps of segments of equal length. -/
namespace MuslBsd.Support

variable {α : Type*}

/-- Swap the `len` elements from `a` on with those from `b` on, one after the other. -/
def swapSegments (xs : List α) (a b : ℕ) : ℕ → List α
  | 0 => xs
  | len + 1 =>
    let xs := swapSegments xs a b len
    match xs[a + len]?, xs[b + len]? with
    | some x, some y => (xs.set (a + len) y).set (b + len) x
    | _, _ => xs

/-- Exchange the segments from `bottom` to `middle` and from there to `top`: the shorter one goes to
its place, and the rest is exchanged; each round takes at least one from `top - bottom`. -/
def exchangeSegments : ℕ → List α → ℕ → ℕ → ℕ → List α
  | 0, xs, _, _, _ => xs
  | k + 1, xs, bottom, middle, top =>
    if middle < top ∧ bottom < middle then
      if middle - bottom < top - middle then
        exchangeSegments k (swapSegments xs bottom (top - (middle - bottom)) (middle - bottom))
          bottom middle (top - (middle - bottom))
      else
        exchangeSegments k (swapSegments xs bottom middle (top - middle))
          (bottom + (top - middle)) middle top
    else xs

/-- One swap of two elements. -/
theorem swap_two (as bs cs : List α) (x y : α) {i j : ℕ} (hi : i = as.length)
    (hj : j = as.length + 1 + bs.length) :
    (match (as ++ x :: (bs ++ y :: cs))[i]?, (as ++ x :: (bs ++ y :: cs))[j]? with
      | some x', some y' => ((as ++ x :: (bs ++ y :: cs)).set i y').set j x'
      | _, _ => as ++ x :: (bs ++ y :: cs)) = as ++ y :: (bs ++ x :: cs) := by
  have hx : (as ++ x :: (bs ++ y :: cs))[i]? = some x := by
    rw [hi, List.getElem?_append_right (Nat.le_refl _), Nat.sub_self]
    rfl
  have hy : (as ++ x :: (bs ++ y :: cs))[j]? = some y := by
    rw [hj, List.getElem?_append_right (by omega),
      show as.length + 1 + bs.length - as.length = bs.length + 1 by omega, List.getElem?_cons_succ,
      List.getElem?_append_right (Nat.le_refl _), Nat.sub_self]
    rfl
  rw [hx, hy]
  have hset : (as ++ x :: (bs ++ y :: cs)).set i y = as ++ y :: (bs ++ y :: cs) := by
    rw [hi, List.set_append_right _ _ (Nat.le_refl _), Nat.sub_self]
    rfl
  show ((as ++ x :: (bs ++ y :: cs)).set i y).set j x = _
  rw [hset, hj, List.set_append_right _ _ (by omega),
    show as.length + 1 + bs.length - as.length = bs.length + 1 by omega, List.set_cons_succ,
    List.set_append_right _ _ (Nat.le_refl _), Nat.sub_self]
  rfl

/-- By induction on the segments from their ends. -/
theorem swapSegments_eq (as xs ms ys rs : List α) (h : xs.length = ys.length) :
    swapSegments (as ++ xs ++ ms ++ ys ++ rs) as.length (as.length + xs.length + ms.length)
      xs.length = as ++ ys ++ ms ++ xs ++ rs := by
  induction xs using List.reverseRecOn generalizing ms ys rs with
  | nil =>
    have hys : ys = [] := List.length_eq_zero_iff.mp h.symm
    subst hys
    rfl
  | append_singleton xs x ih =>
    rcases List.eq_nil_or_concat ys with rfl | ⟨ys, y, rfl⟩
    · simp at h
    · have hlen : xs.length = ys.length := by simpa using h
      have hih := ih (x :: ms) ys (y :: rs) hlen
      have hstart : as ++ (xs ++ [x]) ++ ms ++ ys.concat y ++ rs =
          as ++ xs ++ x :: ms ++ ys ++ y :: rs := by simp
      have hb : as.length + (xs ++ [x]).length + ms.length =
          as.length + xs.length + (x :: ms).length := by
        simp only [List.length_append, List.length_cons, List.length_nil]
        omega
      rw [hstart, hb, List.length_append, List.length_singleton]
      unfold swapSegments
      rw [hih]
      have hmid : as ++ ys ++ x :: ms ++ xs ++ y :: rs =
          (as ++ ys) ++ x :: ((ms ++ xs) ++ y :: rs) := by simp
      rw [hmid]
      rw [swap_two (as ++ ys) (ms ++ xs) rs x y (by rw [List.length_append, hlen]) (by
        simp only [List.length_append, List.length_cons]
        omega)]
      simp

/-- By induction on the rounds: what is exchanged gets shorter by the shorter segment. -/
theorem exchangeSegments_eq (k : ℕ) (as ws ps rs : List α) (hk : ws.length + ps.length ≤ k) :
    exchangeSegments k (as ++ ws ++ ps ++ rs) as.length (as.length + ws.length)
      (as.length + ws.length + ps.length) = as ++ ps ++ ws ++ rs := by
  induction k generalizing as ws ps rs with
  | zero =>
    have hws : ws = [] := List.length_eq_zero_iff.mp (by omega)
    have hps : ps = [] := List.length_eq_zero_iff.mp (by omega)
    subst hws hps
    rfl
  | succ k ih =>
    unfold exchangeSegments
    by_cases hboth : 0 < ps.length ∧ 0 < ws.length
    · rw [if_pos (by omega)]
      by_cases hlt : ws.length < ps.length
      · -- the segment in front is the shorter one: it goes to the end
        rw [if_pos (by omega)]
        obtain ⟨p₁, p₂, rfl, hp₂⟩ : ∃ p₁ p₂, ps = p₁ ++ p₂ ∧ p₂.length = ws.length :=
          ⟨ps.take (ps.length - ws.length), ps.drop (ps.length - ws.length),
            (List.take_append_drop _ _).symm, by rw [List.length_drop]; omega⟩
        rw [List.length_append] at hk hlt hboth ⊢
        have hlen : as.length + ws.length - as.length = ws.length := by omega
        have htop : as.length + ws.length + (p₁.length + p₂.length) - ws.length =
            as.length + ws.length + p₁.length := by omega
        rw [hlen, htop]
        have hswap := swapSegments_eq as ws p₁ p₂ rs hp₂.symm
        have hstart : as ++ ws ++ (p₁ ++ p₂) ++ rs = as ++ ws ++ p₁ ++ p₂ ++ rs := by simp
        have hend : as ++ p₂ ++ p₁ ++ ws ++ rs = as ++ p₂ ++ p₁ ++ (ws ++ rs) := by simp
        rw [hstart, hswap, hend]
        have hih := ih as p₂ p₁ (ws ++ rs) (by omega)
        rw [hp₂] at hih
        rw [hih]
        simp
      · -- the segment behind is: it goes to the front
        rw [if_neg (by omega)]
        obtain ⟨w₁, w₂, rfl, hw₁⟩ : ∃ w₁ w₂, ws = w₁ ++ w₂ ∧ w₁.length = ps.length :=
          ⟨ws.take ps.length, ws.drop ps.length, (List.take_append_drop _ _).symm, by
            rw [List.length_take]; omega⟩
        rw [List.length_append] at hk hlt hboth ⊢
        have hlen : as.length + (w₁.length + w₂.length) + ps.length -
            (as.length + (w₁.length + w₂.length)) = w₁.length := by omega
        rw [hlen]
        have hswap := swapSegments_eq as w₁ w₂ ps rs hw₁
        have hstart : as ++ (w₁ ++ w₂) ++ ps ++ rs = as ++ w₁ ++ w₂ ++ ps ++ rs := by simp
        have hmid : as.length + (w₁.length + w₂.length) = as.length + w₁.length + w₂.length := by
          omega
        rw [hstart, hmid, hswap]
        have hih := ih (as ++ ps) w₂ w₁ rs (by omega)
        rw [List.length_append] at hih
        have hbottom : as.length + w₁.length = as.length + ps.length := by omega
        have htop : as.length + w₁.length + w₂.length + ps.length =
            as.length + ps.length + w₂.length + w₁.length := by omega
        rw [htop, show as.length + w₁.length + w₂.length = as.length + ps.length + w₂.length by omega,
          hbottom, hih]
        simp
    · rw [if_neg (by omega)]
      rcases List.eq_nil_or_concat ps with rfl | ⟨ps, p, rfl⟩
      · simp
      · have hws : ws = [] := by
          apply List.length_eq_zero_iff.mp
          simp only [List.length_concat] at hboth
          omega
        subst hws
        simp

/-- The loop of the exchange, from a test that holds to the one that fails. -/
inductive Exchanges : List α → ℕ → ℕ → ℕ → List α → Prop
  | done {xs : List α} {bottom middle top : ℕ} (h : ¬(middle < top ∧ bottom < middle)) :
    Exchanges xs bottom middle top xs
  | front {xs ys : List α} {bottom middle top : ℕ} (h : middle < top ∧ bottom < middle)
    (short : middle - bottom < top - middle)
    (rest : Exchanges (swapSegments xs bottom (top - (middle - bottom)) (middle - bottom))
      bottom middle (top - (middle - bottom)) ys) : Exchanges xs bottom middle top ys
  | behind {xs ys : List α} {bottom middle top : ℕ} (h : middle < top ∧ bottom < middle)
    (short : ¬middle - bottom < top - middle)
    (rest : Exchanges (swapSegments xs bottom middle (top - middle))
      (bottom + (top - middle)) middle top ys) : Exchanges xs bottom middle top ys

/-- The loop ends: each round takes at least one from `top - bottom`. -/
theorem exchangeSegments_ends (k : ℕ) (xs : List α) {bottom middle top : ℕ}
    (hk : top - bottom ≤ k) :
    Exchanges xs bottom middle top (exchangeSegments k xs bottom middle top) := by
  induction k generalizing xs bottom top with
  | zero =>
    apply Exchanges.done
    omega
  | succ k ih =>
    unfold exchangeSegments
    split
    · next h =>
      split
      · next hlt =>
        apply Exchanges.front h hlt
        apply ih
        omega
      · next hge =>
        apply Exchanges.behind h hge
        apply ih
        omega
    · next h => exact Exchanges.done h

/-- The exchange, with the segments told by their bounds. -/
theorem exchangeSegments_bounds (k : ℕ) (xs : List α) (bottom middle top : ℕ)
    (hbm : bottom ≤ middle) (hmt : middle ≤ top) (htop : top ≤ xs.length) (hk : top - bottom ≤ k) :
    exchangeSegments k xs bottom middle top =
      xs.take bottom ++ (xs.drop middle).take (top - middle) ++
        (xs.drop bottom).take (middle - bottom) ++ xs.drop top := by
  have hfront : (xs.take bottom).length = bottom := List.length_take_of_le (by omega)
  have hws : ((xs.drop bottom).take (middle - bottom)).length = middle - bottom := by
    rw [List.length_take, List.length_drop]
    omega
  have hps : ((xs.drop middle).take (top - middle)).length = top - middle := by
    rw [List.length_take, List.length_drop]
    omega
  have hcut : ∀ {i j : ℕ}, i ≤ j → (xs.drop i).take (j - i) ++ xs.drop j = xs.drop i := by
    intro i j hij
    have hdrop : xs.drop j = (xs.drop i).drop (j - i) := by
      rw [List.drop_drop]
      congr 1
      omega
    rw [hdrop, List.take_append_drop]
  have hxs : xs = xs.take bottom ++ (xs.drop bottom).take (middle - bottom) ++
      (xs.drop middle).take (top - middle) ++ xs.drop top := by
    rw [List.append_assoc, List.append_assoc, hcut hmt, hcut hbm, List.take_append_drop]
  have heq := exchangeSegments_eq k (xs.take bottom) ((xs.drop bottom).take (middle - bottom))
    ((xs.drop middle).take (top - middle)) (xs.drop top) (by omega)
  rw [← hxs, hfront, hws, hps, show bottom + (middle - bottom) = middle by omega,
    show middle + (top - middle) = top by omega] at heq
  exact heq

end MuslBsd.Support
