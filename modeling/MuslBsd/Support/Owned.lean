import Mathlib.Data.List.Nodup
import Mathlib.Data.List.Perm.Basic
import Mathlib.Data.Finset.Card
import Mathlib.Data.Finset.Range
import Mathlib.Logic.Function.Basic

/-! Heaps of cells that know their own address, and the exact list of live cells.
`Owns addr h l` says that the cells `l`, and no others, are allocated in `h`. -/
namespace MuslBsd.Support

universe u

variable {α : Type u}

/-- The cells `l` are what `h` holds, each at its own address. -/
structure Owns (addr : α → ℕ) (h : ℕ → Option α) (l : List α) : Prop where
  nodup : (l.map addr).Nodup
  holds : ∀ a n, h a = some n ↔ n ∈ l ∧ addr n = a

namespace Owns

variable {addr : α → ℕ} {h : ℕ → Option α} {l l' : List α} {n n' : α}

theorem perm {p : List α} (ho : Owns addr h l) (hp : l.Perm p) : Owns addr h p :=
  ⟨(hp.map addr).nodup ho.nodup, fun a m => by rw [ho.holds, hp.mem_iff]⟩

theorem get (ho : Owns addr h l) (hn : n ∈ l) : h (addr n) = some n :=
  (ho.holds _ _).mpr ⟨hn, rfl⟩

theorem head (ho : Owns addr h (n :: l)) : h (addr n) = some n := ho.get (List.mem_cons_self ..)

theorem eq_of_addr (ho : Owns addr h l) (hn : n ∈ l) (hn' : n' ∈ l) (ha : addr n = addr n') :
    n = n' :=
  Option.some.inj ((ho.get hn).symm.trans (ha ▸ ho.get hn'))

theorem ne_of_mem (ho : Owns addr h (n :: l)) (hn' : n' ∈ l) : addr n' ≠ addr n := by
  have hd := ho.nodup
  rw [List.map_cons, List.nodup_cons] at hd
  exact fun he => hd.1 (he ▸ List.mem_map_of_mem hn')

theorem eq_none (ho : Owns addr h l) {a : ℕ} (ha : ∀ n ∈ l, addr n ≠ a) : h a = none :=
  Option.eq_none_iff_forall_ne_some.mpr fun m hm =>
    ha m ((ho.holds a m).mp hm).1 ((ho.holds a m).mp hm).2

theorem empty : Owns addr (fun _ => none) ([] : List α) :=
  ⟨by simp, by simp⟩

/-- Cells with addresses below `k` are at most `k` many. -/
theorem length_le (ho : Owns addr h l) {k : ℕ} (hk : ∀ n ∈ l, addr n < k) : l.length ≤ k := by
  have hs : (⟨l.map addr, ho.nodup⟩ : Finset ℕ) ⊆ Finset.range k := fun a ha => by
    obtain ⟨n, hn, rfl⟩ := List.mem_map.mp (show a ∈ l.map addr from ha)
    exact Finset.mem_range.mpr (hk n hn)
  simpa [Finset.card] using Finset.card_le_card hs

/-- Overwriting a live cell. -/
theorem store {z : α} (ho : Owns addr h (n :: l)) (ha : addr z = addr n) :
    Owns addr (Function.update h (addr n) (some z)) (z :: l) := by
  refine ⟨?_, fun a m => ?_⟩
  · have hd := ho.nodup
    rw [List.map_cons] at hd ⊢
    rwa [ha]
  · by_cases hna : a = addr n
    · subst hna
      simp only [Function.update_self, Option.some.injEq, List.mem_cons]
      refine ⟨fun he => ⟨.inl he.symm, by rw [← he, ha]⟩, fun ⟨hm, hma⟩ => ?_⟩
      rcases hm with rfl | hm
      · rfl
      · exact absurd hma (ho.ne_of_mem hm)
    · rw [Function.update_of_ne hna, ho.holds]
      simp only [List.mem_cons]
      refine ⟨fun ⟨hm, hma⟩ => ?_, fun ⟨hm, hma⟩ => ?_⟩
      · rcases hm with rfl | hm
        · exact absurd hma.symm hna
        · exact ⟨.inr hm, hma⟩
      · rcases hm with rfl | hm
        · exact absurd (ha ▸ hma.symm) hna
        · exact ⟨.inr hm, hma⟩

/-- Changing one live cell, wherever it stands in the list. -/
theorem modify (ho : Owns addr h l) (hn : n ∈ l) {g : α → α} (ha : addr (g n) = addr n) :
    Owns addr (Function.update h (addr n) (some (g n)))
      (l.map fun m => if addr m = addr n then g m else m) := by
  obtain ⟨s, t, rfl⟩ := List.append_of_mem hn
  have ho' := (ho.perm List.perm_middle).store ha
  have hid : ∀ l' ⊆ s ++ t, l'.map (fun m => if addr m = addr n then g m else m) = l' := fun l' hl => by
    conv_rhs => rw [← List.map_id l']
    exact List.map_congr_left fun m hm => if_neg ((ho.perm List.perm_middle).ne_of_mem (hl hm))
  rw [List.map_append, List.map_cons, if_pos rfl, hid s (by simp), hid t (by simp)]
  exact ho'.perm List.perm_middle.symm

/-- Releasing a live cell. -/
theorem free (ho : Owns addr h (n :: l)) :
    Owns addr (Function.update h (addr n) none) l := by
  refine ⟨?_, fun a m => ?_⟩
  · have hd := ho.nodup
    rw [List.map_cons, List.nodup_cons] at hd
    exact hd.2
  · by_cases hna : a = addr n
    · subst hna
      simp only [Function.update_self, reduceCtorEq, false_iff]
      exact fun ⟨hm, hma⟩ => ho.ne_of_mem hm hma
    · rw [Function.update_of_ne hna, ho.holds]
      simp only [List.mem_cons]
      refine ⟨fun ⟨hm, hma⟩ => ?_, fun ⟨hm, hma⟩ => ⟨.inr hm, hma⟩⟩
      rcases hm with rfl | hm
      · exact absurd hma.symm hna
      · exact ⟨hm, hma⟩

/-- Allocating a cell at a free address. -/
theorem alloc (ho : Owns addr h l) (hfresh : ∀ m ∈ l, addr m ≠ addr n) :
    Owns addr (Function.update h (addr n) (some n)) (n :: l) := by
  refine ⟨?_, fun a m => ?_⟩
  · rw [List.map_cons, List.nodup_cons]
    refine ⟨fun hm => ?_, ho.nodup⟩
    obtain ⟨m, hm, he⟩ := List.mem_map.mp hm
    exact hfresh m hm he
  · by_cases hna : a = addr n
    · subst hna
      simp only [Function.update_self, Option.some.injEq, List.mem_cons]
      refine ⟨fun he => ⟨.inl he.symm, by rw [he]⟩, fun ⟨hm, hma⟩ => ?_⟩
      rcases hm with rfl | hm
      · rfl
      · exact absurd hma (hfresh m hm)
    · rw [Function.update_of_ne hna, ho.holds]
      simp only [List.mem_cons]
      refine ⟨fun ⟨hm, hma⟩ => ⟨.inr hm, hma⟩, fun ⟨hm, hma⟩ => ?_⟩
      rcases hm with rfl | hm
      · exact absurd hma.symm hna
      · exact ⟨hm, hma⟩

end Owns

end MuslBsd.Support
