import Mathlib.Data.Nat.Bitwise
import Mathlib.Data.Nat.Size
import MuslBsd.Support.Traced

/-! Rounding up to a power of two by smearing bits, and word arithmetic that reports when it
wraps. -/
namespace MuslBsd.Support

section Smear

/-- `x` after `x |= x >> 1`, `x |= x >> 2`, `x |= x >> 4` and so on, `m` times. -/
def smear (x : ℕ) : ℕ → ℕ
  | 0 => x
  | m + 1 => smear x m ||| smear x m >>> 2 ^ m

/-- The least power of two from `x` on. -/
def roundUp (x : ℕ) : ℕ := 2 ^ (x - 1).size

variable {x i m n k : ℕ}

/-- Every bit reaches the `2 ^ m` places from its own downwards. -/
theorem testBit_smear : (smear x m).testBit i = true ↔ ∃ d < 2 ^ m, x.testBit (i + d) = true := by
  induction m generalizing i with
  | zero => simp [smear]
  | succ m ih =>
    have hpow : 2 ^ (m + 1) = 2 ^ m + 2 ^ m := by omega
    rw [smear, Nat.testBit_or, Nat.testBit_shiftRight, Bool.or_eq_true, ih, ih]
    constructor
    · rintro (⟨d, hd, hbit⟩ | ⟨d, hd, hbit⟩)
      · exact ⟨d, by omega, hbit⟩
      · have hsum : 2 ^ m + i + d = i + (2 ^ m + d) := by omega
        exact ⟨2 ^ m + d, by omega, hsum ▸ hbit⟩
    · rintro ⟨d, hd, hbit⟩
      by_cases hlow : d < 2 ^ m
      · exact .inl ⟨d, hlow, hbit⟩
      · have hsum : 2 ^ m + i + (d - 2 ^ m) = i + d := by omega
        exact .inr ⟨d - 2 ^ m, by omega, by rwa [hsum]⟩

/-- Once every bit has reached the lowest place, all places below the highest bit are filled. -/
theorem smear_eq (h : x < 2 ^ 2 ^ m) : smear x m = 2 ^ x.size - 1 := by
  have hsize : x.size ≤ 2 ^ m := Nat.size_le.mpr h
  apply Nat.eq_of_testBit_eq
  intro i
  rw [Nat.testBit_two_pow_sub_one, Bool.eq_iff_iff, testBit_smear, decide_eq_true_eq]
  constructor
  · rintro ⟨d, -, hbit⟩
    have : i + d < x.size := Nat.lt_size.mpr (Nat.ge_two_pow_of_testBit hbit)
    omega
  · intro hi
    obtain ⟨j, hj, hbit⟩ := Nat.exists_ge_and_testBit_of_ge_two_pow (Nat.lt_size.mp hi)
    have : j < x.size := Nat.lt_size.mpr (Nat.ge_two_pow_of_testBit hbit)
    exact ⟨j - i, by omega, by rwa [Nat.add_sub_cancel' hj]⟩

theorem smear_add_one (h : x - 1 < 2 ^ 2 ^ m) : smear (x - 1) m + 1 = roundUp x := by
  rw [smear_eq h, roundUp, Nat.sub_add_cancel Nat.one_le_two_pow]

theorem le_roundUp (x : ℕ) : x ≤ roundUp x := by
  have := Nat.lt_size_self (x - 1)
  unfold roundUp
  omega

theorem roundUp_le (h : x ≤ 2 ^ k) : roundUp x ≤ 2 ^ k := by
  have hpos : 0 < 2 ^ k := Nat.two_pow_pos k
  exact Nat.pow_le_pow_right (by decide) (Nat.size_le.mpr (by omega))

theorem isPowerOfTwo_roundUp (x : ℕ) : (roundUp x).isPowerOfTwo := ⟨_, rfl⟩

/-- The highest power of two that fits in a word is the last size that can be rounded up to. -/
theorem roundUp_lt_iff (hn : 0 < n) : roundUp x < 2 ^ n ↔ x ≤ 2 ^ (n - 1) := by
  constructor
  · intro h
    have hsize : (x - 1).size ≤ n - 1 := by
      have := (Nat.pow_lt_pow_iff_right (by decide : 1 < 2)).mp h
      omega
    have := Nat.size_le.mp hsize
    omega
  · intro h
    calc roundUp x ≤ 2 ^ (n - 1) := roundUp_le h
      _ < 2 ^ n := Nat.pow_lt_pow_right (by decide) (by omega)

theorem roundUp_eq_of_lt (hlow : 2 ^ (n - 1) < x) (hx : x ≤ 2 ^ n) : roundUp x = 2 ^ n := by
  apply Nat.le_antisymm (roundUp_le hx)
  by_cases hn : n = 0
  · subst hn
    exact Nat.one_le_two_pow
  · by_contra hlt
    have := (roundUp_lt_iff (by omega)).mp (Nat.lt_of_not_le hlt)
    omega

end Smear

namespace Traced

variable {σ ε : Type} {n : ℕ} {wrap : ε} {a b : BitVec n}

/-- `a + b` in words of `n` bits; `wrap` is written when the sum does not fit. -/
def addW (wrap : ε) (a b : BitVec n) : Traced σ ε (BitVec n) := fun s =>
  (a + b, s, if a.uaddOverflow b then [wrap] else [])

/-- `a - b` in words of `n` bits; `wrap` is written when it borrows. -/
def subW (wrap : ε) (a b : BitVec n) : Traced σ ε (BitVec n) := fun s =>
  (a - b, s, if a.usubOverflow b then [wrap] else [])

theorem addW_eq (h : a.toNat + b.toNat < 2 ^ n) :
    (addW wrap a b : Traced σ ε (BitVec n)) = pure (a + b) := by
  have hfits : a.uaddOverflow b = false := by simp [BitVec.uaddOverflow, h]
  unfold addW
  rw [hfits]
  rfl

theorem subW_eq (h : b ≤ a) : (subW wrap a b : Traced σ ε (BitVec n)) = pure (a - b) := by
  have hfits : a.usubOverflow b = false := by
    simpa [BitVec.usubOverflow] using BitVec.le_def.mp h
  unfold subW
  rw [hfits]
  rfl

theorem addW_wraps (h : 2 ^ n ≤ a.toNat + b.toNat) :
    (addW wrap a b : Traced σ ε (BitVec n)) = emit wrap >>= fun _ => pure (a + b) := by
  have hwraps : a.uaddOverflow b = true := by simpa [BitVec.uaddOverflow] using h
  unfold addW
  rw [hwraps]
  rfl

theorem pure_bind {α β : Type} (a : α) (f : α → Traced σ ε β) : pure a >>= f = f a := rfl

theorem bind_assoc {α β γ : Type} (m : Traced σ ε α) (f : α → Traced σ ε β)
    (g : β → Traced σ ε γ) : m >>= f >>= g = m >>= fun a => f a >>= g := by
  funext s
  exact Prod.ext rfl (Prod.ext rfl (List.append_assoc _ _ _))

end Traced

end MuslBsd.Support
