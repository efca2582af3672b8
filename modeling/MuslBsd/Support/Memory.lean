import Mathlib.Algebra.Order.Ring.Nat
import Mathlib.Data.List.Basic
import Mathlib.Order.Interval.Finset.Nat

/-! Byte-addressed memory, the extents of it that are handed out, and how extents are packed. -/
namespace MuslBsd.Support

abbrev Memory := ℕ → UInt8

namespace Memory

variable {m m' : Memory} {p q : ℕ}

/-- `n` bytes from address `p`. -/
def read (m : Memory) (p n : ℕ) : List UInt8 := (List.range n).map fun i => m (p + i)

def write (m : Memory) (p : ℕ) (bytes : List UInt8) : Memory := fun q =>
  if p ≤ q then bytes[q - p]?.getD (m q) else m q

/-- The bytes at `p` are the given ones, where they are given. -/
def Holds (m : Memory) (p : ℕ) (bytes : List (Option UInt8)) : Prop :=
  ∀ (i : ℕ) (b : UInt8), bytes[i]? = some (some b) → m (p + i) = b

@[simp] theorem read_length (m : Memory) (p n : ℕ) : (m.read p n).length = n := by simp [read]

theorem write_outside {bytes : List UInt8} (h : q < p ∨ p + bytes.length ≤ q) :
    m.write p bytes q = m q := by
  unfold write
  by_cases hp : p ≤ q
  · have hlen : bytes.length ≤ q - p := by omega
    simp [hp, List.getElem?_eq_none hlen]
  · simp [hp]

theorem write_inside {bytes : List UInt8} {i : ℕ} {b : UInt8} (h : bytes[i]? = some b) :
    m.write p bytes (p + i) = b := by
  unfold write
  simp [h]

theorem read_congr {n : ℕ} (h : ∀ q, p ≤ q → q < p + n → m' q = m q) : m'.read p n = m.read p n := by
  unfold read
  apply List.map_congr_left
  intro i hi
  have hlt := List.mem_range.mp hi
  exact h (p + i) (by omega) (by omega)

/-- What was written is read back. -/
theorem read_write (m : Memory) (p : ℕ) (bytes : List UInt8) :
    (m.write p bytes).read p bytes.length = bytes := by
  apply List.ext_getElem?
  intro i
  unfold read
  rw [List.getElem?_map]
  by_cases hi : i < bytes.length
  · rw [List.getElem?_range hi, Option.map_some, write_inside (List.getElem?_eq_getElem hi),
      List.getElem?_eq_getElem hi]
  · have hlen : bytes.length ≤ i := Nat.le_of_not_lt hi
    rw [List.getElem?_eq_none (by rw [List.length_range]; exact hlen), List.getElem?_eq_none hlen]
    rfl

@[simp] theorem holds_nil : m.Holds p [] := by
  intro i b h
  simp at h

theorem holds_replicate_none (n : ℕ) : m.Holds p (List.replicate n none) := by
  intro i b h
  simp [List.getElem?_replicate] at h

theorem holds_append {as bs : List (Option UInt8)} :
    m.Holds p (as ++ bs) ↔ m.Holds p as ∧ m.Holds (p + as.length) bs := by
  constructor
  · intro h
    constructor
    · intro i b hi
      have hlt : i < as.length := (List.getElem?_eq_some_iff.mp hi).1
      exact h i b (by rw [List.getElem?_append_left hlt, hi])
    · intro i b hi
      have hb : (as ++ bs)[as.length + i]? = some (some b) := by
        rw [List.getElem?_append_right (by omega)]
        simpa using hi
      rw [Nat.add_assoc]
      exact h _ b hb
  · intro ⟨ha, hb⟩ i b hi
    by_cases hlt : i < as.length
    · rw [List.getElem?_append_left hlt] at hi
      exact ha i b hi
    · rw [List.getElem?_append_right (by omega)] at hi
      have := hb (i - as.length) b hi
      rwa [show p + as.length + (i - as.length) = p + i by omega] at this

/-- Memory that is the same over the extent of the bytes still holds them. -/
theorem Holds.congr {bytes : List (Option UInt8)} (h : m.Holds p bytes)
    (he : ∀ q, p ≤ q → q < p + bytes.length → m' q = m q) : m'.Holds p bytes := by
  intro i b hi
  have hlt : i < bytes.length := (List.getElem?_eq_some_iff.mp hi).1
  rw [he (p + i) (by omega) (by omega)]
  exact h i b hi

theorem holds_write (bytes : List UInt8) : (m.write p bytes).Holds p (bytes.map some) := by
  intro i b hi
  rw [List.getElem?_map] at hi
  obtain ⟨c, hc, he⟩ := Option.map_eq_some_iff.mp hi
  cases he
  exact write_inside hc

/-- Copied bytes are held at the destination as they were at the source. -/
theorem Holds.copy {bytes : List (Option UInt8)} {n : ℕ} (h : m.Holds p bytes)
    (hn : n = bytes.length) : (m'.write q (m.read p n)).Holds q bytes := by
  intro i b hi
  have hlt : i < bytes.length := (List.getElem?_eq_some_iff.mp hi).1
  apply write_inside
  simp [read, hn, hlt, h i b hi]

end Memory

/-- `size` bytes from address `addr`. -/
structure Extent where
  addr : ℕ
  size : ℕ
  deriving DecidableEq, Repr

namespace Extent

/-- The first address past the extent. -/
def stop (e : Extent) : ℕ := e.addr + e.size

def Apart (a b : Extent) : Prop := a.stop ≤ b.addr ∨ b.stop ≤ a.addr

theorem Apart.symm {a b : Extent} (h : a.Apart b) : b.Apart a := Or.symm h

instance (a b : Extent) : Decidable (a.Apart b) := inferInstanceAs (Decidable (_ ∨ _))

/-- The addresses that some extent of the list covers. -/
def cover : List Extent → Finset ℕ
  | [] => ∅
  | e :: es => Finset.Ico e.addr e.stop ∪ cover es

theorem mem_cover {es : List Extent} {q : ℕ} (h : q ∈ cover es) :
    ∃ e ∈ es, e.addr ≤ q ∧ q < e.stop := by
  induction es with
  | nil => simp [cover] at h
  | cons e es ih =>
    rcases Finset.mem_union.mp h with h | h
    · exact ⟨e, by simp, Finset.mem_Ico.mp h⟩
    · obtain ⟨f, hf, hq⟩ := ih h
      exact ⟨f, by simp [hf], hq⟩

theorem card_cover {es : List Extent} (h : es.Pairwise Apart) :
    (cover es).card = (es.map size).sum := by
  induction es with
  | nil => rfl
  | cons e es ih =>
    obtain ⟨he, hes⟩ := List.pairwise_cons.mp h
    have hd : Disjoint (Finset.Ico e.addr e.stop) (cover es) := by
      rw [Finset.disjoint_left]
      intro q hq hc
      obtain ⟨f, hf, hlo, hhi⟩ := mem_cover hc
      obtain ⟨hlo', hhi'⟩ := Finset.mem_Ico.mp hq
      rcases he f hf with h | h <;> omega
    have hsize : e.stop - e.addr = e.size := by simp [stop]
    simp [cover, Finset.card_union_of_disjoint hd, ih hes, hsize]

/-- Extents that do not overlap fill no more than the space they lie in. -/
theorem sum_size_le (es : List Extent) {n : ℕ} (h : es.Pairwise Apart)
    (hn : ∀ e ∈ es, e.stop ≤ n) : (es.map size).sum ≤ n := by
  have hsub : cover es ⊆ Finset.range n := by
    intro q hq
    obtain ⟨e, he, _, hlt⟩ := mem_cover hq
    have := hn e he
    exact Finset.mem_range.mpr (by omega)
  calc (es.map size).sum = (cover es).card := (card_cover h).symm
    _ ≤ (Finset.range n).card := Finset.card_le_card hsub
    _ = n := Finset.card_range n

/-- The extents lie between `lo` and `hi`, each one below the one before it in the list. -/
def Packed (lo : ℕ) : List Extent → ℕ → Prop
  | [], hi => lo ≤ hi
  | e :: es, hi => e.stop ≤ hi ∧ Packed lo es e.addr

variable {lo hi hi' : ℕ} {es : List Extent}

theorem Packed.mono (h : Packed lo es hi) (hh : hi ≤ hi') : Packed lo es hi' := by
  cases es with
  | nil => exact le_trans h hh
  | cons e es => exact ⟨le_trans h.1 hh, h.2⟩

theorem Packed.le (h : Packed lo es hi) : lo ≤ hi := by
  induction es generalizing hi with
  | nil => exact h
  | cons e es ih =>
    have hlo : lo ≤ e.addr := ih h.2
    have hstop := h.1
    unfold stop at hstop
    omega

theorem Packed.mem (h : Packed lo es hi) {e : Extent} (he : e ∈ es) :
    lo ≤ e.addr ∧ e.stop ≤ hi := by
  induction es generalizing hi with
  | nil => cases he
  | cons f es ih =>
    rcases List.mem_cons.mp he with rfl | he
    · exact ⟨h.2.le, h.1⟩
    · obtain ⟨hlo, hstop⟩ := ih h.2 he
      have := h.1
      unfold stop at this ⊢
      unfold stop at hstop
      exact ⟨hlo, by omega⟩

theorem Packed.pairwise (h : Packed lo es hi) : es.Pairwise Apart := by
  induction es generalizing hi with
  | nil => exact .nil
  | cons e es ih =>
    refine List.pairwise_cons.mpr ⟨?_, ih h.2⟩
    intro f hf
    exact .inr (h.2.mem hf).2

/-- What lies below one of the extents is packed up to where that one begins. -/
theorem Packed.below {newer older : List Extent} {e : Extent}
    (h : Packed lo (newer ++ e :: older) hi) : Packed lo older e.addr := by
  induction newer generalizing hi with
  | nil => exact h.2
  | cons f newer ih => exact ih h.2

end Extent

end MuslBsd.Support
