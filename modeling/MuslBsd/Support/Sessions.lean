import Mathlib.Data.List.Basic

/-! Sessions of calls on an object, and objects that answer every call in the same way. -/
namespace MuslBsd.Support

variable {σ τ ι ο : Type*}

/-- What a list of calls makes of a state, and the answers. `f` tells this of one call, and fails for
a call that is not allowed, or that does not come to its end. -/
def answers (f : ι → σ → Option (σ × ο)) : List ι → σ → Option (σ × List ο)
  | [], s => some (s, [])
  | c :: cs, s => (f c s).bind fun r => (answers f cs r.1).map fun r' => (r'.1, r.2 :: r'.2)

variable {f : ι → σ → Option (σ × ο)} {g : ι → τ → Option (τ × ο)} {R : σ → τ → Prop} {c : ι} {cs : List ι} {s s' : σ} {t t' : τ} {as : List ο}

theorem answers_cons (h : answers f (c :: cs) s = some (s', as)) :
    ∃ s₁ a as', f c s = some (s₁, a) ∧ answers f cs s₁ = some (s', as') ∧ as = a :: as' := by
  obtain ⟨⟨s₁, a⟩, hc, h⟩ := Option.bind_eq_some_iff.mp h
  obtain ⟨⟨s₂, as'⟩, hcs, h⟩ := Option.map_eq_some_iff.mp h
  cases h
  exact ⟨s₁, a, as', hc, hcs, rfl⟩

/-- An object that answers each call as another one does, as long as the state of that is not larger
than `n`, answers every session in the same way. A call adds at most one to the size. -/
theorem answers_refine (size : τ → ℕ) (n : ℕ)
    (hsize : ∀ c t t' a, g c t = some (t', a) → size t' ≤ size t + 1)
    (hstep : ∀ c s t t' a, R s t → size t ≤ n → g c t = some (t', a) →
      ∃ s', f c s = some (s', a) ∧ R s' t')
    (h : R s t) (hn : size t + cs.length ≤ n) (hcs : answers g cs t = some (t', as)) :
    ∃ s', answers f cs s = some (s', as) ∧ R s' t' := by
  induction cs generalizing s t as with
  | nil =>
    cases hcs
    exact ⟨s, rfl, h⟩
  | cons c cs ih =>
    rw [List.length_cons] at hn
    obtain ⟨t₁, a, as', hc, hrest, rfl⟩ := answers_cons hcs
    obtain ⟨s₁, hs₁, h₁⟩ := hstep c s t t₁ a h (by omega) hc
    have hgrow := hsize c t t₁ a hc
    obtain ⟨s₂, hs₂, h₂⟩ := ih h₁ (by omega) hrest
    refine ⟨s₂, ?_, h₂⟩
    rw [answers, hs₁, Option.bind_some, hs₂]
    rfl

/-- Every call is allowed where it is made; `g` tells what a call makes of the state. -/
def Lawful (ok : ι → τ → Prop) (g : ι → τ → τ) : List ι → τ → Prop
  | [], _ => True
  | c :: cs, t => ok c t ∧ Lawful ok g cs (g c t)

/-- What `a` answers, call by call. -/
def replies (g : ι → τ → τ) (a : ι → τ → ο) : List ι → τ → List ο
  | [], _ => []
  | c :: cs, t => a c t :: replies g a cs (g c t)

/-- An object that does what it should in each call that is allowed does so in a session of them. -/
theorem answers_lawful {ok : ι → τ → Prop} {g : ι → τ → τ} {a : ι → τ → ο}
    (hstep : ∀ c ∈ cs, ∀ s t, R s t → ok c t → ∃ s', f c s = some (s', a c t) ∧ R s' (g c t))
    (h : R s t) (hcs : Lawful ok g cs t) :
    ∃ s', answers f cs s = some (s', replies g a cs t) ∧ R s' (cs.foldl (fun t c => g c t) t) := by
  induction cs generalizing s t with
  | nil => exact ⟨s, rfl, h⟩
  | cons c cs ih =>
    obtain ⟨hok, hrest⟩ := hcs
    obtain ⟨s₁, hs₁, h₁⟩ := hstep c (List.mem_cons_self ..) s t h hok
    obtain ⟨s₂, hs₂, h₂⟩ := ih (fun d hd => hstep d (List.mem_cons_of_mem _ hd)) h₁ hrest
    refine ⟨s₂, ?_, h₂⟩
    rw [answers, hs₁, Option.bind_some, hs₂]
    rfl

end MuslBsd.Support
