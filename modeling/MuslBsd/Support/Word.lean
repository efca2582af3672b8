import Mathlib.Data.Nat.Bitwise

/-! Unsigned words of `n` bits: sums and differences that wrap, and addresses that are aligned up. -/
namespace MuslBsd.Support.Word

def top (n : ℕ) : ℕ := 2 ^ n - 1
def add (n a b : ℕ) : ℕ := (a + b) % 2 ^ n
def sub (n a b : ℕ) : ℕ := (a + 2 ^ n - b) % 2 ^ n

/-- The least address from `p` on of which no bit of `mask` is set. -/
def alignUp (n p mask : ℕ) : ℕ := add n p mask &&& (top n - mask)

variable {n k p q a b : ℕ}

theorem add_lt (n a b : ℕ) : add n a b < 2 ^ n := Nat.mod_lt _ (Nat.two_pow_pos n)

theorem add_eq (h : a + b < 2 ^ n) : add n a b = a + b := Nat.mod_eq_of_lt h

theorem sub_eq (hb : b ≤ a) (ha : a < 2 ^ n) : sub n a b = a - b := by
  have hsplit : a + 2 ^ n - b = a - b + 2 ^ n := by omega
  unfold sub
  rw [hsplit, Nat.add_mod_right]
  exact Nat.mod_eq_of_lt (by omega)

/-- The check `a + b < a` tells whether a sum has wrapped. -/
theorem add_lt_iff (ha : a < 2 ^ n) (hb : b < 2 ^ n) : add n a b < a ↔ 2 ^ n ≤ a + b := by
  by_cases h : a + b < 2 ^ n
  · rw [add_eq h]
    omega
  · have hwrap : add n a b = a + b - 2 ^ n := by
      unfold add
      rw [Nat.mod_eq_sub_mod (by omega)]
      exact Nat.mod_eq_of_lt (by omega)
    rw [hwrap]
    omega

/-- So does the check `top - a < b`. -/
theorem top_sub_lt_iff (ha : a < 2 ^ n) : top n - a < b ↔ 2 ^ n ≤ a + b := by
  unfold top
  omega

/-- Masking with `~(2 ^ k - 1)` clears the lowest `k` bits. -/
theorem and_mask (hk : k < n) (hp : p < 2 ^ n) : p &&& (top n - (2 ^ k - 1)) = p / 2 ^ k * 2 ^ k := by
  have hpow : 2 ^ k < 2 ^ n := Nat.pow_lt_pow_right (by decide) hk
  have hpos : 0 < 2 ^ k := Nat.two_pow_pos k
  have hmask : top n - (2 ^ k - 1) = 2 ^ n - (2 ^ k - 1 + 1) := by
    unfold top
    omega
  rw [hmask]
  apply Nat.eq_of_testBit_eq
  intro i
  rw [Nat.testBit_and, Nat.testBit_two_pow_sub_succ (by omega), Nat.testBit_two_pow_sub_one,
    Nat.testBit_mul_two_pow, Nat.testBit_div_two_pow]
  by_cases hi : k ≤ i
  · by_cases hn : i < n
    · have hsub : i - k + k = i := by omega
      simp [hi, hn, Nat.not_lt.mpr hi, hsub]
    · have hle : 2 ^ n ≤ 2 ^ i := Nat.pow_le_pow_right (by decide) (by omega)
      have hbit : p.testBit i = false := Nat.testBit_lt_two_pow (by omega)
      have hsub : i - k + k = i := by omega
      simp [hbit, hsub]
  · simp [hi, Nat.lt_of_not_le hi]

/-- Without wrapping, an aligned address is the next multiple of the alignment. -/
theorem alignUp_eq (hk : k < n) (hp : p + 2 ^ k ≤ 2 ^ n) :
    alignUp n p (2 ^ k - 1) = (p + (2 ^ k - 1)) / 2 ^ k * 2 ^ k := by
  have hpos : 0 < 2 ^ k := Nat.two_pow_pos k
  have hlt : p + (2 ^ k - 1) < 2 ^ n := by omega
  unfold alignUp
  rw [add_eq hlt, and_mask hk hlt]

theorem le_alignUp (hk : k < n) (hp : p + 2 ^ k ≤ 2 ^ n) : p ≤ alignUp n p (2 ^ k - 1) := by
  have hpos : 0 < 2 ^ k := Nat.two_pow_pos k
  rw [alignUp_eq hk hp]
  have := Nat.div_add_mod' (p + (2 ^ k - 1)) (2 ^ k)
  have := Nat.mod_lt (p + (2 ^ k - 1)) hpos
  omega

theorem alignUp_le (hk : k < n) (hp : p + 2 ^ k ≤ 2 ^ n) :
    alignUp n p (2 ^ k - 1) ≤ p + (2 ^ k - 1) := by
  rw [alignUp_eq hk hp]
  exact Nat.div_mul_le_self _ _

theorem dvd_alignUp (hk : k < n) (p : ℕ) : 2 ^ k ∣ alignUp n p (2 ^ k - 1) := by
  unfold alignUp
  rw [and_mask hk (add_lt n p _)]
  exact Dvd.intro_left _ rfl

/-- No aligned address lies between an address and the one it is aligned to. -/
theorem alignUp_le_of_dvd (hk : k < n) (hp : p + 2 ^ k ≤ 2 ^ n) (hd : 2 ^ k ∣ q) (hq : p ≤ q) :
    alignUp n p (2 ^ k - 1) ≤ q := by
  obtain ⟨c, rfl⟩ := hd
  have hpos : 0 < 2 ^ k := Nat.two_pow_pos k
  have hc : (p + (2 ^ k - 1)) / 2 ^ k ≤ c := by
    apply Nat.le_of_lt_succ
    apply Nat.div_lt_of_lt_mul
    rw [Nat.mul_succ]
    omega
  rw [alignUp_eq hk hp, Nat.mul_comm (2 ^ k) c]
  exact Nat.mul_le_mul_right _ hc

end MuslBsd.Support.Word
