import MuslBsd.Support.Traced
import Mathlib.Data.List.Range

/-! Programs that may fault, and what can be said of every run of theirs at once: what they write,
which faults they stop with, which invariant they keep and what they return. -/
namespace MuslBsd.Support

universe u

namespace Faulting

variable {φ σ ε α β : Type u}

/-- Write one trace item. -/
def emit (e : ε) : Faulting φ σ ε PUnit := fun s => (.ok ⟨⟩, s, [e])

/-- One run, from a state that satisfies `J`. -/
structure Guarded (J : σ → Prop) (P : ε → Prop) (F : φ → Prop) (post : α → Prop)
    (r : Except φ α × σ × List ε) : Prop where
  writes : ∀ e ∈ r.2.2, P e
  state : J r.2.1
  fault : ∀ x, r.1 = .error x → F x
  value : ∀ a, r.1 = .ok a → post a

theorem Guarded.returned {J : σ → Prop} {P : ε → Prop} {F : φ → Prop} {post : α → Prop} {a : α}
    {s : σ} (hs : J s) (h : post a) : Guarded J P F post (.ok a, s, []) := by
  refine ⟨fun e he => (List.not_mem_nil he).elim, hs, ?_, ?_⟩
  · intro x hx
    cases hx
  · intro b hb
    exact Except.ok.inj hb ▸ h

/-- Every run keeps `J`, writes only what satisfies `P`, faults only with `F` and returns only
what satisfies `post`. -/
def Guards (J : σ → Prop) (P : ε → Prop) (F : φ → Prop) (m : Faulting φ σ ε α)
    (post : α → Prop) : Prop :=
  ∀ s, J s → Guarded J P F post (m s)

namespace Guards

variable {J : σ → Prop} {P : ε → Prop} {F : φ → Prop} {post p : α → Prop} {q : β → Prop}
  {m : Faulting φ σ ε α} {f : α → Faulting φ σ ε β}

theorem pure {a : α} (h : post a) : Guards J P F (Pure.pure a) post :=
  fun _ hs => .returned hs h

theorem stop {x : φ} (h : F x) : Guards J P F (Faulting.fault x) post := by
  intro s hs
  refine ⟨fun e he => (List.not_mem_nil he).elim, hs, ?_, ?_⟩
  · intro y hy
    exact Except.error.inj hy ▸ h
  · intro a ha
    cases ha

theorem emit {e : ε} (h : P e) : Guards J P F (Faulting.emit e) fun _ => True := by
  intro s hs
  refine ⟨?_, hs, ?_, fun _ _ => trivial⟩
  · intro x hx
    have hxe : x = e := List.mem_singleton.mp hx
    exact hxe ▸ h
  · intro x hx
    cases hx

theorem gets {g : σ → α} (h : ∀ s, J s → post (g s)) : Guards J P F (Faulting.gets g) post :=
  fun s hs => .returned hs (h s hs)

theorem modify {g : σ → σ} (h : ∀ s, J s → J (g s)) :
    Guards J P F (Faulting.modify g) fun _ => True :=
  fun s hs => .returned (h s hs) trivial

/-- The rule of sequencing. -/
theorem bind (h : Guards J P F m p) (hf : ∀ a, p a → Guards J P F (f a) q) :
    Guards J P F (m >>= f) q := by
  intro s hs
  have hm := h s hs
  cases hr : m s with
  | mk r rest =>
    obtain ⟨s', t⟩ := rest
    rw [hr] at hm
    cases r with
    | error x =>
      rw [bind_error hr]
      refine ⟨hm.writes, hm.state, ?_, ?_⟩
      · intro y hy
        exact hm.fault y (congrArg Except.error (Except.error.inj hy))
      · intro b hb
        cases hb
    | ok a =>
      rw [bind_ok hr]
      have hfa := hf a (hm.value a rfl) s' hm.state
      refine ⟨?_, hfa.state, hfa.fault, hfa.value⟩
      intro e he
      rcases List.mem_append.mp he with he | he
      · exact hm.writes e he
      · exact hfa.writes e he

theorem mono (h : Guards J P F m p) (hp : ∀ a, p a → post a) : Guards J P F m post := by
  intro s hs
  have hm := h s hs
  exact ⟨hm.writes, hm.state, hm.fault, fun a ha => hp a (hm.value a ha)⟩

theorem any (h : Guards J P F m p) : Guards J P F m fun _ => True := h.mono fun _ _ => trivial

theorem ite {c : Prop} [Decidable c] {m' : Faulting φ σ ε α} (h : c → Guards J P F m post)
    (h' : ¬c → Guards J P F m' post) : Guards J P F (if c then m else m') post := by
  split
  · exact h ‹_›
  · exact h' ‹_›

end Guards

/-! ### Single steps -/

section Steps

variable (s : σ)

@[simp] theorem pure_run (a : α) : (Pure.pure a : Faulting φ σ ε α) s = (.ok a, s, []) := rfl

@[simp] theorem fault_run (x : φ) : (fault x : Faulting φ σ ε α) s = (.error x, s, []) := rfl

@[simp] theorem gets_bind_run (g : σ → α) (f : α → Faulting φ σ ε β) :
    (gets g >>= f) s = f (g s) s := rfl

@[simp] theorem modify_bind_run (g : σ → σ) (f : PUnit → Faulting φ σ ε β) :
    (modify g >>= f) s = f ⟨⟩ (g s) := rfl

@[simp] theorem pure_bind_run (a : α) (f : α → Faulting φ σ ε β) :
    (Pure.pure a >>= f) s = f a s := rfl

@[simp] theorem fault_bind_run (x : φ) (f : α → Faulting φ σ ε β) :
    (fault x >>= f) s = (.error x, s, []) := rfl

@[simp] theorem emit_bind_run (e : ε) (f : PUnit → Faulting φ σ ε β) :
    (emit e >>= f) s = ((f ⟨⟩ s).1, (f ⟨⟩ s).2.1, e :: (f ⟨⟩ s).2.2) := rfl

theorem bind_run (m : Faulting φ σ ε α) (f : α → Faulting φ σ ε β) : (m >>= f) s =
    match m s with
    | (.ok a, s', t) => ((f a s').1, (f a s').2.1, t ++ (f a s').2.2)
    | (.error x, s', t) => (.error x, s', t) := rfl

end Steps

/-! ### Runs that return -/

/-- `m`, started in `s`, returns, and what it returns, leaves and writes satisfies `post`. -/
def Returns (m : Faulting φ σ ε α) (s : σ) (post : α → σ → List ε → Prop) : Prop :=
  ∃ a s' t, m s = (.ok a, s', t) ∧ post a s' t

section

variable {m m' : Faulting φ σ ε α} {f : α → Faulting φ σ ε β} {s : σ}
  {post p : α → σ → List ε → Prop} {q : β → σ → List ε → Prop}

theorem Returns.mono (h : Returns m s p) (hp : ∀ a s' t, p a s' t → post a s' t) :
    Returns m s post := by
  obtain ⟨a, s', t, hrun, ha⟩ := h
  exact ⟨a, s', t, hrun, hp a s' t ha⟩

@[simp] theorem returns_pure {a : α} : Returns (pure a : Faulting φ σ ε α) s post ↔ post a s [] := by
  constructor
  · intro h
    obtain ⟨_, _, _, hrun, h⟩ := h
    cases hrun
    exact h
  · intro h
    exact ⟨a, s, [], rfl, h⟩

@[simp] theorem returns_fault {x : φ} : Returns (fault x : Faulting φ σ ε α) s post ↔ False := by
  constructor
  · intro h
    obtain ⟨_, _, _, hrun, -⟩ := h
    cases hrun
  · exact False.elim

/-- The rule of sequencing, also backwards: there is only one run. -/
theorem returns_bind : Returns (m >>= f) s q ↔
    Returns m s fun a s' t => Returns (f a) s' fun b s'' t' => q b s'' (t ++ t') := by
  cases hr : m s with
  | mk r rest =>
    obtain ⟨s', t⟩ := rest
    cases r with
    | error x =>
      constructor
      · intro h
        obtain ⟨_, _, _, hrun, -⟩ := h
        rw [bind_error hr] at hrun
        cases hrun
      · intro h
        obtain ⟨_, _, _, hrun, -⟩ := h
        rw [hr] at hrun
        cases hrun
    | ok a =>
      constructor
      · intro h
        obtain ⟨b, s'', t'', hrun, hq⟩ := h
        rw [bind_ok hr] at hrun
        cases hf : f a s' with
        | mk r' rest' =>
          rw [hf] at hrun
          cases hrun
          exact ⟨a, s', t, hr, b, _, _, hf, hq⟩
      · intro h
        obtain ⟨a', s₁, t₁, hrun, b, s'', t', hrun', hq⟩ := h
        rw [hr] at hrun
        cases hrun
        refine ⟨b, s'', t ++ t', ?_, hq⟩
        rw [bind_ok hr, hrun']

@[simp] theorem returns_gets_bind {g : σ → α} :
    Returns (gets g >>= f) s q ↔ Returns (f (g s)) s q := Iff.rfl

@[simp] theorem returns_modify_bind {g : σ → σ} {f : PUnit → Faulting φ σ ε β} :
    Returns (modify g >>= f) s q ↔ Returns (f ⟨⟩) (g s) q := Iff.rfl

@[simp] theorem returns_modify {g : σ → σ} {post : PUnit → σ → List ε → Prop} :
    Returns (modify g : Faulting φ σ ε PUnit) s post ↔ post ⟨⟩ (g s) [] := by
  constructor
  · intro h
    obtain ⟨_, _, _, hrun, h⟩ := h
    cases hrun
    exact h
  · intro h
    exact ⟨⟨⟩, g s, [], rfl, h⟩

@[simp] theorem returns_emit_bind {e : ε} {f : PUnit → Faulting φ σ ε β} :
    Returns (emit e >>= f) s q ↔ Returns (f ⟨⟩) s fun b s' t => q b s' (e :: t) := by
  rw [returns_bind]
  constructor
  · intro h
    obtain ⟨_, _, _, hrun, h⟩ := h
    cases hrun
    exact h
  · intro h
    exact ⟨⟨⟩, s, [e], rfl, h⟩

theorem returns_ite {c : Prop} [Decidable c] : Returns (if c then m else m') s post ↔
    (c → Returns m s post) ∧ (¬c → Returns m' s post) := by
  split
  · rename_i h
    simp [h]
  · rename_i h
    simp [h]

end

/-! ### Runs that stop -/

/-- `m`, started in `s`, stops with the fault `x`. -/
def Stops (m : Faulting φ σ ε α) (s : σ) (x : φ) : Prop := (m s).1 = .error x

section

variable {m m' : Faulting φ σ ε α} {f : α → Faulting φ σ ε β} {s : σ} {x : φ}

theorem stops_pure {a : α} : Stops (Pure.pure a : Faulting φ σ ε α) s x ↔ False := by
  constructor
  · intro h
    cases h
  · exact False.elim

theorem stops_fault {y : φ} : Stops (fault y : Faulting φ σ ε α) s x ↔ y = x := by
  constructor
  · intro h
    exact Except.error.inj h
  · intro h
    rw [h]
    rfl

/-- It stops in the first part, or in what follows. -/
theorem stops_bind : Stops (m >>= f) s x ↔
    Stops m s x ∨ ∃ a s' t, m s = (.ok a, s', t) ∧ Stops (f a) s' x := by
  unfold Stops
  cases hr : m s with
  | mk r rest =>
    obtain ⟨s', t⟩ := rest
    cases r with
    | error y =>
      rw [bind_error hr]
      constructor
      · intro h
        exact .inl (congrArg Except.error (Except.error.inj h))
      · intro h
        rcases h with h | ⟨_, _, _, hrun, -⟩
        · exact congrArg Except.error (Except.error.inj h)
        · cases hrun
    | ok a =>
      rw [bind_ok hr]
      constructor
      · intro h
        exact .inr ⟨a, s', t, rfl, h⟩
      · intro h
        rcases h with h | ⟨_, _, _, hrun, h⟩
        · cases h
        · cases hrun
          exact h

theorem stops_gets_bind {g : σ → α} : Stops (gets g >>= f) s x ↔ Stops (f (g s)) s x := Iff.rfl

theorem stops_modify {g : σ → σ} :
    Stops (modify g : Faulting φ σ ε PUnit) s x ↔ False := by
  constructor
  · intro h
    cases h
  · exact False.elim

theorem stops_modify_bind {g : σ → σ} {f : PUnit → Faulting φ σ ε β} :
    Stops (modify g >>= f) s x ↔ Stops (f ⟨⟩) (g s) x := Iff.rfl

theorem stops_emit_bind {e : ε} {f : PUnit → Faulting φ σ ε β} :
    Stops (emit e >>= f) s x ↔ Stops (f ⟨⟩) s x := Iff.rfl

theorem stops_ite {c : Prop} [Decidable c] : Stops (if c then m else m') s x ↔
    (c ∧ Stops m s x) ∨ (¬c ∧ Stops m' s x) := by
  split
  · rename_i h
    simp [h]
  · rename_i h
    simp [h]

/-- What returns does not stop. -/
theorem Returns.not_stops {post : α → σ → List ε → Prop} (h : Returns m s post) : ¬Stops m s x := by
  obtain ⟨_, _, _, hrun, -⟩ := h
  intro hstops
  unfold Stops at hstops
  rw [hrun] at hstops
  cases hstops

end

/-! ### Relations that runs follow -/

/-- A relation between states and what is written from one to the other, along sequences. -/
structure Sequential (R : σ → List ε → σ → Prop) : Prop where
  refl : ∀ s, R s [] s
  trans : ∀ {s t s' t' s''}, R s t s' → R s' t' s'' → R s (t ++ t') s''

/-- Every run follows the relation, also one that stops with a fault. -/
def Follows (R : σ → List ε → σ → Prop) (m : Faulting φ σ ε α) : Prop :=
  ∀ s, R s (m s).2.2 (m s).2.1

namespace Follows

variable {R : σ → List ε → σ → Prop} {m : Faulting φ σ ε α} {f : α → Faulting φ σ ε β}

theorem pure (hR : Sequential R) (a : α) : Follows R (Pure.pure a : Faulting φ σ ε α) :=
  fun s => hR.refl s

theorem stop (hR : Sequential R) (x : φ) : Follows R (Faulting.fault x : Faulting φ σ ε α) :=
  fun s => hR.refl s

theorem gets (hR : Sequential R) (g : σ → α) : Follows R (Faulting.gets g : Faulting φ σ ε α) :=
  fun s => hR.refl s

theorem modify {g : σ → σ} (h : ∀ s, R s [] (g s)) :
    Follows R (Faulting.modify g : Faulting φ σ ε PUnit) := h

theorem emit {e : ε} (h : ∀ s, R s [e] s) :
    Follows R (Faulting.emit e : Faulting φ σ ε PUnit) := h

theorem bind (hR : Sequential R) (h : Follows R m) (hf : ∀ a, Follows R (f a)) :
    Follows R (m >>= f) := by
  intro s
  have hm := h s
  cases hr : m s with
  | mk r rest =>
    obtain ⟨s', t⟩ := rest
    rw [hr] at hm
    cases r with
    | error x =>
      rw [bind_error hr]
      exact hm
    | ok a =>
      rw [bind_ok hr]
      exact hR.trans hm (hf a s')

theorem ite {c : Prop} [Decidable c] {m' : Faulting φ σ ε α} (h : c → Follows R m)
    (h' : ¬c → Follows R m') : Follows R (if c then m else m') := by
  split
  · exact h ‹_›
  · exact h' ‹_›

end Follows

/-! ### Runs that a map of the states leaves alone -/

/-- From the image of `s` the run is the image of the run from `s`. -/
def Along (f : σ → σ) (m : Faulting φ σ ε α) (s : σ) : Prop := m (f s) = ((m s).1, f (m s).2.1, (m s).2.2)

namespace Along

variable {f : σ → σ} {m m' : Faulting φ σ ε α} {k : α → Faulting φ σ ε β} {s : σ}

theorem pure (a : α) : Along f (Pure.pure a : Faulting φ σ ε α) s := rfl

theorem stop (x : φ) : Along f (Faulting.fault x : Faulting φ σ ε α) s := rfl

theorem emit (e : ε) : Along f (Faulting.emit e : Faulting φ σ ε PUnit) s := rfl

theorem modify {g : σ → σ} (h : g (f s) = f (g s)) :
    Along f (Faulting.modify g : Faulting φ σ ε PUnit) s := by
  unfold Along Faulting.modify
  rw [h]

theorem bind (h : Along f m s) (hk : ∀ a s' t, m s = (.ok a, s', t) → Along f (k a) s') :
    Along f (m >>= k) s := by
  unfold Along at h ⊢
  cases hr : m s with
  | mk r rest =>
    obtain ⟨s', t⟩ := rest
    rw [hr] at h
    cases r with
    | error x => rw [bind_error h, bind_error hr]
    | ok a =>
      have hka := hk a s' t hr
      unfold Along at hka
      rw [bind_ok h, bind_ok hr, hka]

/-- What is read has to lead to the same program. -/
theorem gets_bind {g : σ → α} (hg : k (g (f s)) = k (g s)) (h : Along f (k (g s)) s) :
    Along f (Faulting.gets g >>= k) s := by
  unfold Along at h ⊢
  rw [gets_bind_run, gets_bind_run, hg, h]

theorem modify_bind {g : σ → σ} {k : PUnit → Faulting φ σ ε β} (hg : g (f s) = f (g s))
    (h : Along f (k ⟨⟩) (g s)) : Along f (Faulting.modify g >>= k) s := by
  unfold Along at h ⊢
  rw [modify_bind_run, modify_bind_run, hg, h]

theorem ite {c : Prop} [Decidable c] (h : c → Along f m s) (h' : ¬c → Along f m' s) :
    Along f (if c then m else m') s := by
  split
  · exact h ‹_›
  · exact h' ‹_›

end Along

/-! ### Loops over a range -/

/-- `for index in range(i, i + n)` with a body that may break. -/
def forRange (body : ℕ → β → Faulting φ σ ε (ForInStep β)) : ℕ → ℕ → β → Faulting φ σ ε β
  | 0, _, b => pure b
  | n + 1, i, b => do
    match ← body i b with
    | .done b => pure b
    | .yield b => forRange body n (i + 1) b

/-- `[body(index) for index in range(i, i + n)]`. -/
def mapRange (body : ℕ → Faulting φ σ ε β) : ℕ → ℕ → Faulting φ σ ε (List β)
  | 0, _ => pure []
  | n + 1, i => do
    let b ← body i
    let bs ← mapRange body n (i + 1)
    pure (b :: bs)

variable {J : σ → Prop} {P : ε → Prop} {F : φ → Prop} {I : β → Prop}

theorem Guards.forRange {body : ℕ → β → Faulting φ σ ε (ForInStep β)}
    (h : ∀ i b, I b → Guards J P F (body i b) fun r => I r.value) {n i : ℕ} {b : β} (hb : I b) :
    Guards J P F (Faulting.forRange body n i b) I := by
  induction n generalizing i b with
  | zero => exact .pure hb
  | succ n ih =>
    refine .bind (h i b hb) ?_
    intro r hr
    cases r with
    | done b' => exact .pure hr
    | yield b' => exact ih hr

theorem Guards.mapRange {body : ℕ → Faulting φ σ ε β} {n i : ℕ}
    (h : ∀ j, i ≤ j → j < i + n → Guards J P F (body j) I) :
    Guards J P F (Faulting.mapRange body n i) fun bs => bs.length = n ∧ ∀ b ∈ bs, I b := by
  induction n generalizing i with
  | zero => exact .pure ⟨rfl, by simp⟩
  | succ n ih =>
    refine .bind (h i (le_refl i) (by omega)) fun b hb => ?_
    refine .bind (ih fun j hj hn => h j (by omega) (by omega)) fun bs hbs => .pure ?_
    refine ⟨by rw [List.length_cons, hbs.1], ?_⟩
    intro c hc
    rcases List.mem_cons.mp hc with rfl | hc
    · exact hb
    · exact hbs.2 c hc

end Faulting

end MuslBsd.Support
