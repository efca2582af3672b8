import Mathlib.Data.List.Basic

/-! Deterministic programs over a state that also write a trace, with and without
faults, and the lockstep simulation of a faulting program by a fault-free one. -/
namespace MuslBsd.Support

universe u

/-- A program over states `σ` that returns an `α` and the trace of what it did. -/
def Traced (σ ε α : Type u) : Type u := σ → α × σ × List ε

/-- A program that may fault; the state reached and the trace written so far survive a fault. -/
def Faulting (φ σ ε α : Type u) : Type u := σ → Except φ α × σ × List ε

namespace Traced

variable {σ ε α β : Type u}

/-- The value returned. -/
def val (m : Traced σ ε α) (s : σ) : α := (m s).1

/-- The state reached. -/
def out (m : Traced σ ε α) (s : σ) : σ := (m s).2.1

/-- The trace written. -/
def acts (m : Traced σ ε α) (s : σ) : List ε := (m s).2.2

instance : Monad (Traced σ ε) where
  pure a := fun s => (a, s, [])
  bind m f := fun s =>
    let (a, s', t) := m s
    let (b, s'', t') := f a s'
    (b, s'', t ++ t')

/-- Read a component of the state. -/
def gets (f : σ → α) : Traced σ ε α := fun s => (f s, s, [])

/-- Change the state and return nothing. -/
def modify (f : σ → σ) : Traced σ ε PUnit := fun s => (⟨⟩, f s, [])

/-- Write one trace item. -/
def emit (e : ε) : Traced σ ε PUnit := fun s => (⟨⟩, s, [e])

@[simp] theorem val_pure (a : α) (s : σ) : val (pure a : Traced σ ε α) s = a := rfl
@[simp] theorem out_pure (a : α) (s : σ) : out (pure a : Traced σ ε α) s = s := rfl
@[simp] theorem acts_pure (a : α) (s : σ) : acts (pure a : Traced σ ε α) s = [] := rfl

@[simp] theorem val_bind (m : Traced σ ε α) (f : α → Traced σ ε β) (s : σ) :
    val (m >>= f) s = val (f (val m s)) (out m s) := rfl
@[simp] theorem out_bind (m : Traced σ ε α) (f : α → Traced σ ε β) (s : σ) :
    out (m >>= f) s = out (f (val m s)) (out m s) := rfl
@[simp] theorem acts_bind (m : Traced σ ε α) (f : α → Traced σ ε β) (s : σ) :
    acts (m >>= f) s = acts m s ++ acts (f (val m s)) (out m s) := rfl

@[simp] theorem val_gets (f : σ → α) (s : σ) : val (gets f : Traced σ ε α) s = f s := rfl
@[simp] theorem out_gets (f : σ → α) (s : σ) : out (gets f : Traced σ ε α) s = s := rfl
@[simp] theorem acts_gets (f : σ → α) (s : σ) : acts (gets f : Traced σ ε α) s = [] := rfl
@[simp] theorem out_modify (f : σ → σ) (s : σ) : out (modify f : Traced σ ε PUnit) s = f s := rfl
@[simp] theorem acts_modify (f : σ → σ) (s : σ) : acts (modify f : Traced σ ε PUnit) s = [] := rfl
@[simp] theorem out_emit (e : ε) (s : σ) : out (emit e : Traced σ ε PUnit) s = s := rfl
@[simp] theorem acts_emit (e : ε) (s : σ) : acts (emit e : Traced σ ε PUnit) s = [e] := rfl

theorem mem_acts_bind {m : Traced σ ε α} {f : α → Traced σ ε β} {s : σ} {e : ε} :
    e ∈ acts (m >>= f) s ↔ e ∈ acts m s ∨ e ∈ acts (f (val m s)) (out m s) := by
  rw [acts_bind, List.mem_append]

theorem bind_pure (m : Traced σ ε α) : m >>= pure = m := by
  funext s
  exact Prod.ext rfl (Prod.ext rfl (List.append_nil _))

/-- `m`, started in `s`, ends with a value, a state and a trace that satisfy `post`. -/
def Ensures (m : Traced σ ε α) (s : σ) (post : α → σ → List ε → Prop) : Prop :=
  post (val m s) (out m s) (acts m s)

theorem Ensures.mono {m : Traced σ ε α} {s : σ} {p q : α → σ → List ε → Prop}
    (h : Ensures m s p) (hpq : ∀ a s' t, p a s' t → q a s' t) : Ensures m s q :=
  hpq _ _ _ h

theorem Ensures.pure {a : α} {s : σ} {post : α → σ → List ε → Prop} (h : post a s []) :
    Ensures (Pure.pure a : Traced σ ε α) s post := h

/-- The rule of sequencing: what the first program ensures is where the second one starts. -/
theorem Ensures.bind {m : Traced σ ε α} {f : α → Traced σ ε β} {s : σ}
    {p : α → σ → List ε → Prop} {post : β → σ → List ε → Prop} (h : Ensures m s p)
    (hf : ∀ a s' t, p a s' t → Ensures (f a) s' (fun b s'' t' => post b s'' (t ++ t'))) :
    Ensures (m >>= f) s post :=
  hf _ _ _ h

/-- `m`, started in `s`, writes only trace items with `P`, and ends with a value and a state in
`post`. -/
def Does (P : ε → Prop) (m : Traced σ ε α) (s : σ) (post : α → σ → Prop) : Prop :=
  (∀ e ∈ acts m s, P e) ∧ post (val m s) (out m s)

namespace Does

variable {P : ε → Prop} {s : σ} {m : Traced σ ε α} {f : α → Traced σ ε β}

theorem mono {p q : α → σ → Prop} (h : Does P m s p) (hpq : ∀ a s', p a s' → q a s') :
    Does P m s q :=
  ⟨h.1, hpq _ _ h.2⟩

theorem weaken {Q : ε → Prop} {p : α → σ → Prop} (h : Does P m s p) (hpq : ∀ e, P e → Q e) :
    Does Q m s p :=
  ⟨fun e he => hpq e (h.1 e he), h.2⟩

theorem and {p q : α → σ → Prop} (h : Does P m s p) (h' : Does P m s q) :
    Does P m s fun a s' => p a s' ∧ q a s' :=
  ⟨h.1, h.2, h'.2⟩

theorem pure {a : α} {post : α → σ → Prop} (h : post a s) :
    Does P (Pure.pure a : Traced σ ε α) s post :=
  ⟨by simp, h⟩

theorem bind {p : α → σ → Prop} {post : β → σ → Prop} (h : Does P m s p)
    (hf : ∀ a s', p a s' → Does P (f a) s' post) : Does P (m >>= f) s post := by
  refine ⟨fun e he => ?_, (hf _ _ h.2).2⟩
  rcases mem_acts_bind.mp he with he | he
  · exact h.1 e he
  · exact (hf _ _ h.2).1 e he

theorem gets {g : σ → α} {post : β → σ → Prop} (hf : Does P (f (g s)) s post) :
    Does P (Traced.gets g >>= f) s post :=
  bind (p := fun a s' => a = g s ∧ s' = s) ⟨by simp, rfl, rfl⟩ (by rintro _ _ ⟨rfl, rfl⟩; exact hf)

theorem modify {g : σ → σ} {f : PUnit → Traced σ ε β} {post : β → σ → Prop}
    (hf : Does P (f ⟨⟩) (g s) post) : Does P (Traced.modify g >>= f) s post :=
  bind (p := fun _ s' => s' = g s) ⟨by simp, rfl⟩ (by rintro _ _ rfl; exact hf)

theorem emit {e : ε} {f : PUnit → Traced σ ε β} {post : β → σ → Prop} (he : P e)
    (hf : Does P (f ⟨⟩) s post) : Does P (Traced.emit e >>= f) s post :=
  bind (p := fun _ s' => s' = s) ⟨by simpa using he, rfl⟩ (by rintro _ _ rfl; exact hf)

theorem ite {c : Prop} [Decidable c] {m m' : Traced σ ε α} {post : α → σ → Prop}
    (h : c → Does P m s post) (h' : ¬c → Does P m' s post) :
    Does P (if c then m else m') s post := by
  split
  · exact h ‹_›
  · exact h' ‹_›

end Does

/-- `m` leaves the component `g` of the state alone. -/
def Keeps {γ : Type*} (g : σ → γ) (m : Traced σ ε α) : Prop := ∀ s, g (out m s) = g s

namespace Keeps

variable {γ δ : Type*} {g : σ → γ}

theorem pure (a : α) : Keeps g (Pure.pure a : Traced σ ε α) := fun _ => rfl

theorem gets (f : σ → α) : Keeps g (Traced.gets f : Traced σ ε α) := fun _ => rfl

theorem emit (e : ε) : Keeps g (Traced.emit e : Traced σ ε PUnit) := fun _ => rfl

theorem modify {f : σ → σ} (h : ∀ s, g (f s) = g s) :
    Keeps g (Traced.modify f : Traced σ ε PUnit) := h

theorem bind {m : Traced σ ε α} {f : α → Traced σ ε β} (h : Keeps g m) (hf : ∀ a, Keeps g (f a)) :
    Keeps g (m >>= f) :=
  fun s => (hf _ _).trans (h s)

theorem ite {c : Prop} [Decidable c] {m m' : Traced σ ε α} (h : Keeps g m) (h' : Keeps g m') :
    Keeps g (if c then m else m') := by
  split <;> assumption

/-- What is computed from a component that is left alone is left alone too. -/
theorem comp {m : Traced σ ε α} (h : Keeps g m) (k : γ → δ) : Keeps (fun s => k (g s)) m :=
  fun s => congrArg k (h s)

end Keeps

/-- `m` writes only trace items that satisfy `P`. -/
def Writes (P : ε → Prop) (m : Traced σ ε α) : Prop := ∀ s, ∀ e ∈ acts m s, P e

namespace Writes

variable {P Q : ε → Prop}

theorem pure (a : α) : Writes P (Pure.pure a : Traced σ ε α) := fun _ _ h => by simp at h

theorem gets (f : σ → α) : Writes P (Traced.gets f : Traced σ ε α) := fun _ _ h => by simp at h

theorem modify (f : σ → σ) : Writes P (Traced.modify f : Traced σ ε PUnit) :=
  fun _ _ h => by simp at h

theorem emit {e : ε} (h : P e) : Writes P (Traced.emit e : Traced σ ε PUnit) :=
  fun _ x hx => by
    rw [acts_emit, List.mem_singleton] at hx
    exact hx ▸ h

theorem bind {m : Traced σ ε α} {f : α → Traced σ ε β} (h : Writes P m)
    (hf : ∀ a, Writes P (f a)) : Writes P (m >>= f) := fun s e he => by
  rw [acts_bind, List.mem_append] at he
  rcases he with he | he
  · exact h s e he
  · exact hf _ _ e he

theorem ite {c : Prop} [Decidable c] {m m' : Traced σ ε α} (h : Writes P m) (h' : Writes P m') :
    Writes P (if c then m else m') := by
  split <;> assumption

theorem mono {m : Traced σ ε α} (h : Writes P m) (hpq : ∀ e, P e → Q e) : Writes Q m :=
  fun s e he => hpq e (h s e he)

end Writes

/-- The value `m` returns satisfies `P`. -/
def Returns (P : α → Prop) (m : Traced σ ε α) : Prop := ∀ s, P (val m s)

namespace Returns

variable {P : α → Prop} {Q : β → Prop}

theorem pure {a : α} (h : P a) : Returns P (Pure.pure a : Traced σ ε α) := fun _ => h

theorem bind {m : Traced σ ε α} {f : α → Traced σ ε β} (h : Returns P m)
    (hf : ∀ a, P a → Returns Q (f a)) : Returns Q (m >>= f) :=
  fun s => hf _ (h s) _

theorem bind_any {m : Traced σ ε α} {f : α → Traced σ ε β} (hf : ∀ a, Returns Q (f a)) :
    Returns Q (m >>= f) :=
  fun _ => hf _ _

theorem ite {c : Prop} [Decidable c] {m m' : Traced σ ε α} (h : c → Returns P m)
    (h' : ¬c → Returns P m') : Returns P (if c then m else m') := by
  split
  · exact h ‹_›
  · exact h' ‹_›

theorem mono {P' : α → Prop} {m : Traced σ ε α} (h : Returns P m) (hpp : ∀ a, P a → P' a) :
    Returns P' m :=
  fun s => hpp _ (h s)

end Returns

end Traced

namespace Faulting

variable {φ σ τ ε α β : Type u}

instance : Monad (Faulting φ σ ε) where
  pure a := fun s => (.ok a, s, [])
  bind m f := fun s =>
    match m s with
    | (.ok a, s', t) =>
      let (r, s'', t') := f a s'
      (r, s'', t ++ t')
    | (.error e, s', t) => (.error e, s', t)

/-- Stop with a fault. -/
def fault (e : φ) : Faulting φ σ ε α := fun s => (.error e, s, [])

/-- Read a component of the state. -/
def gets (f : σ → α) : Faulting φ σ ε α := fun s => (.ok (f s), s, [])

/-- Change the state and return nothing. -/
def modify (f : σ → σ) : Faulting φ σ ε PUnit := fun s => (.ok ⟨⟩, f s, [])

/-- Run a fault-free program on the part of the state that `get` and `set` select. -/
def zoom (get : σ → τ) (set : τ → σ → σ) (m : Traced τ ε α) : Faulting φ σ ε α := fun s =>
  (.ok (m (get s)).1, set (m (get s)).2.1 s, (m (get s)).2.2)

theorem bind_ok {m : Faulting φ σ ε α} {f : α → Faulting φ σ ε β} {s s' : σ} {a : α} {t : List ε}
    (h : m s = (.ok a, s', t)) : (m >>= f) s = ((f a s').1, (f a s').2.1, t ++ (f a s').2.2) := by
  change (match m s with
    | (.ok a, s', t) => _
    | (.error e, s', t) => _) = _
  rw [h]

theorem bind_error {m : Faulting φ σ ε α} {f : α → Faulting φ σ ε β} {s s' : σ} {e : φ}
    {t : List ε} (h : m s = (.error e, s', t)) : (m >>= f) s = (.error e, s', t) := by
  change (match m s with
    | (.ok a, s', t) => _
    | (.error e, s', t) => _) = _
  rw [h]

end Faulting

section Simulation

open Traced

variable {φ σ τ ε α β γ δ : Type u}

/-- `m` runs in lockstep with the fault-free `a` as long as it runs: it writes the same trace,
leaves the part `get` of its state as `a` leaves it and ends in `post`. Where `m` faults, `a`
writes a trace item that is `bad`. -/
def Sim (get : σ → τ) (bad : ε → Prop) (m : Faulting φ σ ε α) (a : Traced τ ε β) (s : σ)
    (post : α → σ → β → Prop) : Prop :=
  (∃ x s', m s = (.ok x, s', acts a (get s)) ∧ get s' = out a (get s) ∧
    post x s' (val a (get s))) ∨
  ((∃ f s' t, m s = (.error f, s', t)) ∧ ∃ e ∈ acts a (get s), bad e)

variable {get : σ → τ} {bad : ε → Prop}

theorem Sim.mono {m : Faulting φ σ ε α} {a : Traced τ ε β} {s : σ} {p q : α → σ → β → Prop}
    (h : Sim get bad m a s p) (hpq : ∀ x s' b, p x s' b → q x s' b) : Sim get bad m a s q := by
  rcases h with ⟨x, s', hm, ho, hp⟩ | h
  · exact .inl ⟨x, s', hm, ho, hpq _ _ _ hp⟩
  · exact .inr h

/-- A run that ends without a fault is the run of the fault-free program. -/
theorem Sim.of_ok {m : Faulting φ σ ε α} {a : Traced τ ε β} {s s' : σ} {x : α} {t : List ε}
    {post : α → σ → β → Prop} (h : Sim get bad m a s post) (hm : m s = (.ok x, s', t)) :
    t = acts a (get s) ∧ get s' = out a (get s) ∧ post x s' (val a (get s)) := by
  rcases h with ⟨y, s'', hm', ho, hp⟩ | ⟨⟨f, s'', t', hm'⟩, -⟩
  · rw [hm] at hm'
    obtain ⟨rfl, rfl, rfl⟩ : x = y ∧ s' = s'' ∧ t = acts a (get s) := by simpa using hm'
    exact ⟨rfl, ho, hp⟩
  · rw [hm] at hm'
    simp at hm'

/-- Without a bad trace item there is no fault. -/
theorem Sim.ok {m : Faulting φ σ ε α} {a : Traced τ ε β} {s : σ} {post : α → σ → β → Prop}
    (h : Sim get bad m a s post) (hb : ∀ e ∈ acts a (get s), ¬bad e) :
    ∃ x s', m s = (.ok x, s', acts a (get s)) := by
  rcases h with ⟨x, s', hm, -⟩ | ⟨-, e, he, hbe⟩
  · exact ⟨x, s', hm⟩
  · exact absurd hbe (hb e he)

theorem sim_pure {x : α} {b : β} {s : σ} {post : α → σ → β → Prop} (h : post x s b) :
    Sim get bad (pure x : Faulting φ σ ε α) (pure b) s post :=
  .inl ⟨x, s, rfl, rfl, h⟩

theorem sim_bind {m : Faulting φ σ ε α} {a : Traced τ ε β} {f : α → Faulting φ σ ε γ}
    {g : β → Traced τ ε δ} {s : σ} {p : α → σ → β → Prop} {post : γ → σ → δ → Prop}
    (h : Sim get bad m a s p)
    (hf : ∀ x s' b, p x s' b → get s' = out a (get s) → b = val a (get s) →
      Sim get bad (f x) (g b) s' post) :
    Sim get bad (m >>= f) (a >>= g) s post := by
  rcases h with ⟨x, s', hm, ho, hp⟩ | ⟨⟨e, s', t, hm⟩, b, hb, hbad⟩
  · rcases hf x s' _ hp ho rfl with ⟨y, s'', hy, ho', hq⟩ | ⟨⟨e, s'', t, hy⟩, b, hb, hbad⟩
    · rw [ho] at hy ho' hq
      refine .inl ⟨y, s'', ?_, ?_, ?_⟩
      · rw [Faulting.bind_ok hm, hy, acts_bind]
      · simpa using ho'
      · simpa using hq
    · rw [ho] at hb
      refine .inr ⟨⟨e, s'', _, by rw [Faulting.bind_ok hm, hy]⟩, b, ?_, hbad⟩
      rw [acts_bind]
      exact List.mem_append_right _ hb
  · refine .inr ⟨⟨e, s', t, Faulting.bind_error hm⟩, b, ?_, hbad⟩
    rw [acts_bind]
    exact List.mem_append_left _ hb

/-- A silent step of the faulting program that leaves the shared part alone. -/
theorem sim_silent {m : Faulting φ σ ε α} {f : α → Faulting φ σ ε γ} {a : Traced τ ε δ}
    {s u : σ} {x : α} {post : γ → σ → δ → Prop} (h : m s = (.ok x, u, []))
    (hget : get u = get s) (hf : Sim get bad (f x) a u post) :
    Sim get bad (m >>= f) a s post := by
  rcases hf with ⟨y, v, hy, ho, hq⟩ | ⟨⟨e, v, t, hy⟩, hb⟩
  · rw [hget] at hy ho hq
    refine .inl ⟨y, v, ?_, ho, hq⟩
    rw [Faulting.bind_ok h, hy]
    rfl
  · rw [hget] at hb
    exact .inr ⟨⟨e, v, _, by rw [Faulting.bind_ok h, hy]⟩, hb⟩

/-- A silent step of the fault-free program that leaves its state alone. -/
theorem sim_silent_right {m : Faulting φ σ ε α} {a : Traced τ ε β} {g : β → Traced τ ε δ}
    {s : σ} {post : α → σ → δ → Prop} (ht : acts a (get s) = []) (ho : out a (get s) = get s)
    (hf : Sim get bad m (g (val a (get s))) s post) : Sim get bad m (a >>= g) s post := by
  rcases hf with ⟨x, s', hm, ho', hq⟩ | ⟨hm, e, he, hb⟩
  · refine .inl ⟨x, s', ?_, ?_, ?_⟩
    · rw [hm, acts_bind, ht, ho, List.nil_append]
    · rw [ho', out_bind, ho]
    · rw [val_bind, ho]
      exact hq
  · refine .inr ⟨hm, e, ?_, hb⟩
    rw [acts_bind, ho]
    exact List.mem_append_right _ he

/-- Both programs run the same fault-free program on the shared part. -/
theorem sim_zoom {set : τ → σ → σ} (hgs : ∀ y s, get (set y s) = y) {a : Traced τ ε β} {s : σ}
    {post : β → σ → β → Prop} (h : post (val a (get s)) (set (out a (get s)) s) (val a (get s))) :
    Sim get bad (Faulting.zoom get set a : Faulting φ σ ε β) a s post :=
  .inl ⟨_, _, rfl, hgs _ _, h⟩

/-- A fault, where the fault-free program writes a bad item. -/
theorem sim_fault {m : Faulting φ σ ε α} {a : Traced τ ε β} {s : σ} {post : α → σ → β → Prop}
    (h : ∃ f s' t, m s = (.error f, s', t)) {e : ε} (he : e ∈ acts a (get s)) (hb : bad e) :
    Sim get bad m a s post :=
  .inr ⟨h, e, he, hb⟩

/-- Cases on one condition in both programs. -/
theorem sim_ite {c : Prop} [Decidable c] {m m' : Faulting φ σ ε α} {a a' : Traced τ ε β} {s : σ}
    {post : α → σ → β → Prop} (ht : c → Sim get bad m a s post)
    (hf : ¬c → Sim get bad m' a' s post) :
    Sim get bad (if c then m else m') (if c then a else a') s post := by
  split
  · exact ht ‹_›
  · exact hf ‹_›

end Simulation

end MuslBsd.Support
