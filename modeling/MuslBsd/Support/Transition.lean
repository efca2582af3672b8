import Mathlib.Logic.Function.Basic
import Mathlib.Data.List.Basic

/-! Runs of transition systems, and of families of processes that step on their own and fork. -/
namespace MuslBsd.Support

universe u

variable {σ : Type u}

/-- The states that runs from `init` get to. -/
inductive Reachable (init : σ → Prop) (step : σ → σ → Prop) : σ → Prop
  | start {s : σ} (h : init s) : Reachable init step s
  | next {s s' : σ} (h : Reachable init step s) (hs : step s s') : Reachable init step s'

/-- What holds at the start and is kept by every step holds in every run. -/
theorem Reachable.invariant {init : σ → Prop} {step : σ → σ → Prop} {P : σ → Prop}
    (hi : ∀ s, init s → P s) (hs : ∀ s s', P s → step s s' → P s') {s : σ}
    (h : Reachable init step s) : P s := by
  induction h with
  | start h => exact hi _ h
  | next _ h ih => exact hs _ _ ih h

/-- Processes with a memory each: how a first one starts, how one steps, and which children a
process may fork off. -/
structure Forking (σ : Type u) where
  init : σ → Prop
  step : σ → σ → Prop
  fork : σ → σ → Prop

namespace Forking

variable (F : Forking σ)

/-- One process steps, or forks; the others stay as they are. -/
inductive Step : List σ → List σ → Prop
  | run {l r : List σ} {p p' : σ} (h : F.step p p') : Step (l ++ p :: r) (l ++ p' :: r)
  | fork {l r : List σ} {p c : σ} (h : F.fork p c) : Step (l ++ p :: r) (l ++ p :: (r ++ [c]))

/-- The families of processes that grow from a single one. -/
def Runs : List σ → Prop := Reachable (fun ps => ∃ p, F.init p ∧ ps = [p]) F.Step

variable {F}

/-- An invariant of one process that children inherit holds of every process of every run. -/
theorem Runs.invariant {P : σ → Prop} (hi : ∀ p, F.init p → P p)
    (hs : ∀ p p', P p → F.step p p' → P p') (hf : ∀ p c, P p → F.fork p c → P c) {ps : List σ}
    (h : F.Runs ps) : ∀ p ∈ ps, P p := by
  refine Reachable.invariant (P := fun ps => ∀ p ∈ ps, P p) ?_ ?_ h
  · rintro _ ⟨p, hp, rfl⟩ q hq
    rw [List.mem_singleton.mp hq]
    exact hi p hp
  · intro s s' hall hstep q hq
    cases hstep with
    | @run l r p p' h =>
      have hp : P p := hall p (by simp)
      simp only [List.mem_append, List.mem_cons] at hq hall
      rcases hq with hq | rfl | hq
      · exact hall q (.inl hq)
      · exact hs p q hp h
      · exact hall q (.inr (.inr hq))
    | @fork l r p c h =>
      have hp : P p := hall p (by simp)
      simp only [List.mem_append, List.mem_cons, List.not_mem_nil, or_false] at hq hall
      rcases hq with hq | rfl | hq | rfl
      · exact hall q (.inl hq)
      · exact hp
      · exact hall q (.inr (.inr hq))
      · exact hf p q hp h

end Forking

end MuslBsd.Support
