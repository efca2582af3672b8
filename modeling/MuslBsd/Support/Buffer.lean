import Mathlib.Data.List.TakeDrop
import Mathlib.Data.Int.Notation

/-! A buffer of fixed size, and copies into it and within it that may not leave it. -/
namespace MuslBsd.Support.Buffer

variable {α : Type*} {m m' : List α}

/-- `n` elements from position `i`. -/
def load (m : List α) (i n : ℤ) : Option (List α) :=
  if 0 ≤ i ∧ 0 ≤ n ∧ i + n ≤ m.length then some ((m.drop i.toNat).take n.toNat) else none

def store (m : List α) (i : ℤ) (xs : List α) : Option (List α) :=
  if 0 ≤ i ∧ i + xs.length ≤ m.length then
    some (m.take i.toNat ++ xs ++ m.drop (i.toNat + xs.length))
  else none

/-- Copy `n` elements to position `dst`; the two ranges may overlap. -/
def move (m : List α) (dst src n : ℤ) : Option (List α) := do
  let xs ← load m src n
  store m dst xs

/-- A position in the buffer, or the one past its end. -/
def position (m : List α) (i : ℤ) : Option ℕ :=
  if 0 ≤ i ∧ i ≤ m.length then some i.toNat else none

theorem load_eq {i n : ℕ} (h : i + n ≤ m.length) : load m i n = some ((m.drop i).take n) := by
  have hb : (0 : ℤ) ≤ i ∧ (0 : ℤ) ≤ n ∧ (i : ℤ) + n ≤ m.length := by omega
  unfold load
  rw [if_pos hb, Int.toNat_natCast, Int.toNat_natCast]

theorem store_eq {i : ℕ} {xs : List α} (h : i + xs.length ≤ m.length) :
    store m i xs = some (m.take i ++ xs ++ m.drop (i + xs.length)) := by
  have hb : (0 : ℤ) ≤ i ∧ (i : ℤ) + xs.length ≤ m.length := by omega
  unfold store
  rw [if_pos hb, Int.toNat_natCast]

theorem position_eq {i : ℕ} (h : i ≤ m.length) : position m i = some i := by
  have hb : (0 : ℤ) ≤ i ∧ (i : ℤ) ≤ m.length := by omega
  unfold position
  rw [if_pos hb, Int.toNat_natCast]

/-- A store that stays in the buffer happens; it keeps the size and all below it. -/
theorem exists_store (m : List α) (i : ℕ) (xs : List α) (h : i + xs.length ≤ m.length) :
    ∃ m', store m i xs = some m' ∧ m'.length = m.length ∧
      m'.take (i + xs.length) = m.take i ++ xs ∧
      m'.drop (i + xs.length) = m.drop (i + xs.length) := by
  have hi : (m.take i ++ xs).length = i + xs.length := by
    rw [List.length_append, List.length_take, Nat.min_eq_left (by omega)]
  refine ⟨_, store_eq h, ?_, List.take_left' hi, List.drop_left' hi⟩
  rw [List.length_append, hi, List.length_drop]
  omega

theorem exists_move (m : List α) (dst src n : ℕ) (hs : src + n ≤ m.length) (hd : dst + n ≤ m.length) :
    ∃ m', move m dst src n = some m' ∧ m'.length = m.length ∧
      m'.take (dst + n) = m.take dst ++ (m.drop src).take n ∧
      m'.drop (dst + n) = m.drop (dst + n) := by
  have hn : ((m.drop src).take n).length = n := by
    rw [List.length_take, List.length_drop, Nat.min_eq_left (by omega)]
  obtain ⟨m', hm', hlen, htake, hdrop⟩ :=
    exists_store m dst ((m.drop src).take n) (by omega)
  rw [hn] at htake hdrop
  refine ⟨m', ?_, hlen, htake, hdrop⟩
  unfold move
  rw [load_eq hs]
  exact hm'

end MuslBsd.Support.Buffer
