import Mathlib.Algebra.Order.Ring.Nat
import Mathlib.Data.Int.Notation
import MuslBsd.Support.Transition

/-! `pthread_once`: threads that race for a control word, initializers that are cancelled or call
`pthread_once` themselves, and processes that fork. -/
namespace MuslBsd.Pthread
open MuslBsd.Support

def ONCE_INPROGRESS : ℕ := 1
def ONCE_DONE : ℕ := 2
def ONCE_GEN_INCR : ℕ := 4

/-- `word & ONCE_STATE_MASK`. -/
def onceState (word : ℕ) : ℕ := word % 4

/-- `word & ONCE_GEN_MASK`. -/
def onceGen (word : ℕ) : ℕ := word / 4 * 4

/-- The next atomic step of a call. From `genLoad` to `genPub` it is in `process_once_generation`,
in the last two in `once_cancel`. -/
inductive OncePC
  | fast
  | genLoad
  | genRead
  | genCas (seen : ℤ)
  | genAdd
  | genPub (seen : ℕ)
  | check (generation : ℕ)
  | cas (generation current : ℕ)
  | init
  | storeDone
  | wakeDone
  | wait (current : ℕ)
  | asleep
  | ret
  | cancelStore
  | cancelWake
  deriving DecidableEq, Repr

/-- A call of `pthread_once` on `word`. -/
structure OnceFrame (W : Type) where
  word : W
  pc : OncePC
  deriving DecidableEq, Repr

/-- The memory of a process. What follows `control` is history: the generations set up along the
fork chain, the initializers that completed in this process and in its ancestors before they
forked, the words that were DONE when it was forked, and the process that put a word in progress
last. -/
structure OnceMemory (W : Type) where
  pid : ℕ
  ancestors : List ℕ
  oncePid : ℤ
  onceGeneration : ℕ
  control : W → ℕ
  generations : ℕ
  completed : W → ℕ
  inherited : W → ℕ
  doneAtFork : W → Bool
  owner : W → ℕ

/-- A process. `frame (t, i)` is the call of thread `t` at depth `i`. -/
structure OnceProcess (T W : Type) extends OnceMemory W where
  frame : T × ℕ → Option (OnceFrame W)

variable {T W : Type}

namespace OnceProcess

section Steps

variable [DecidableEq T]

def setFrame (p : OnceProcess T W) (a : T × ℕ) (f : Option (OnceFrame W)) : OnceProcess T W :=
  { p with frame := Function.update p.frame a f }

@[simp] theorem frame_setFrame_self (p : OnceProcess T W) (a : T × ℕ) (f : Option (OnceFrame W)) :
    (p.setFrame a f).frame a = f := Function.update_self ..

theorem frame_setFrame_of_ne (p : OnceProcess T W) {a b : T × ℕ} (f : Option (OnceFrame W))
    (h : b ≠ a) : (p.setFrame a f).frame b = p.frame b := Function.update_of_ne h ..

/-- The call `a` runs: its thread is not in a later call. -/
def Top (p : OnceProcess T W) (a : T × ℕ) : Prop := p.frame (a.1, a.2 + 1) = none

variable [DecidableEq W]

/-- `once_futex_wake`: every call that sleeps on `w` goes on. -/
def wakeAll (p : OnceProcess T W) (w : W) : OnceProcess T W :=
  { p with frame := fun b => if p.frame b = some ⟨w, .asleep⟩ then some ⟨w, .genLoad⟩ else p.frame b }

/-- The next atomic step of the call `a` on `w`. In `init` the initializer returns, in `asleep` the
futex wakes up for no reason. -/
def advance (p : OnceProcess T W) (a : T × ℕ) (w : W) : OncePC → OnceProcess T W
  | .fast =>
    p.setFrame a (some ⟨w, if onceState (p.control w) = ONCE_DONE then .ret else .genLoad⟩)
  | .genLoad =>
    let next : OncePC :=
      if p.oncePid = p.pid then .genRead
      else if p.oncePid = -p.pid then .genLoad
      else .genCas p.oncePid
    p.setFrame a (some ⟨w, next⟩)
  | .genRead => p.setFrame a (some ⟨w, .check p.onceGeneration⟩)
  | .genCas seen =>
    if p.oncePid = seen then { p with oncePid := -p.pid }.setFrame a (some ⟨w, .genAdd⟩)
    else p.setFrame a (some ⟨w, .genLoad⟩)
  | .genAdd =>
    let seen := (p.onceGeneration + ONCE_GEN_INCR) % 2 ^ 32
    { p with onceGeneration := seen, generations := p.generations + 1 }.setFrame a
      (some ⟨w, .genPub seen⟩)
  | .genPub seen => { p with oncePid := p.pid }.setFrame a (some ⟨w, .check (onceGen seen)⟩)
  | .check generation =>
    let current := p.control w
    let next : OncePC :=
      if onceState current = ONCE_DONE then .ret
      else if current &&& ONCE_INPROGRESS = 0 ∨ onceGen current ≠ generation then
        .cas generation current
      else .wait current
    p.setFrame a (some ⟨w, next⟩)
  | .cas generation current =>
    if p.control w = current then
      { p with
        control := Function.update p.control w (generation ||| ONCE_INPROGRESS)
        owner := Function.update p.owner w p.pid }.setFrame a (some ⟨w, .init⟩)
    else p.setFrame a (some ⟨w, .genLoad⟩)
  | .init =>
    { p with completed := Function.update p.completed w (p.completed w + 1) }.setFrame a
      (some ⟨w, .storeDone⟩)
  | .storeDone =>
    { p with control := Function.update p.control w ONCE_DONE }.setFrame a (some ⟨w, .wakeDone⟩)
  | .wakeDone => (p.wakeAll w).setFrame a (some ⟨w, .ret⟩)
  | .wait current =>
    p.setFrame a (some ⟨w, if p.control w = current then .asleep else .genLoad⟩)
  | .asleep => p.setFrame a (some ⟨w, .genLoad⟩)
  | .ret => p.setFrame a none
  | .cancelStore =>
    { p with control := Function.update p.control w 0 }.setFrame a (some ⟨w, .cancelWake⟩)
  | .cancelWake => (p.wakeAll w).setFrame a none

/-- Where a thread may call `pthread_once`: outside, or in an initializer. -/
def Callable (p : OnceProcess T W) : T × ℕ → Prop
  | (_, 0) => True
  | (t, i + 1) => ∃ w, p.frame (t, i) = some ⟨w, .init⟩

/-- The cleanup handlers that cancelling `t` runs, the last pushed first. -/
def cancel (p : OnceProcess T W) (t : T) : OnceProcess T W :=
  { p with
    frame := fun b => if b.1 = t then
      (p.frame b).map fun f => ⟨f.word, if f.pc = .init then .cancelStore else f.pc⟩
    else p.frame b }

/-- Steps of one thread. An initializer is the only place of a call with a cancellation point. -/
inductive Step : OnceProcess T W → OnceProcess T W → Prop
  | call {p : OnceProcess T W} {a : T × ℕ} (w : W) (hc : p.Callable a) (ha : p.frame a = none) :
    Step p (p.setFrame a (some ⟨w, .fast⟩))
  | advance {p : OnceProcess T W} {a : T × ℕ} {w : W} {pc : OncePC}
      (ha : p.frame a = some ⟨w, pc⟩) (ht : p.Top a)
      (hg : pc = .genAdd → p.generations + 1 < 2 ^ 30) :
    Step p (p.advance a w pc)
  | cancel {p : OnceProcess T W} {a : T × ℕ} {w : W} (ha : p.frame a = some ⟨w, .init⟩)
      (ht : p.Top a) :
    Step p (p.cancel a.1)

/-- Before the first call. -/
def Start (p : OnceProcess T W) : Prop :=
  0 < p.pid ∧ p.ancestors = [] ∧ p.oncePid = 0 ∧ p.onceGeneration = 0 ∧ (∀ w, p.control w = 0) ∧
    (∀ a, p.frame a = none) ∧ p.generations = 0 ∧ (∀ w, p.completed w = 0) ∧
    (∀ w, p.inherited w = 0) ∧ (∀ w, p.doneAtFork w = false) ∧ ∀ w, p.owner w = 0

/-- `fork` by a thread that is not in `pthread_once`: the child has that thread only, the memory
of its parent, and a pid that no process of the chain has. -/
def Fork (p c : OnceProcess T W) : Prop :=
  (∃ t, ∀ i, p.frame (t, i) = none) ∧
    0 < c.pid ∧ c.pid ∉ p.pid :: p.ancestors ∧ c.ancestors = p.pid :: p.ancestors ∧
    c.oncePid = p.oncePid ∧ c.onceGeneration = p.onceGeneration ∧ c.control = p.control ∧
    c.frame = (fun _ => none) ∧ c.generations = p.generations ∧ c.completed = (fun _ => 0) ∧
    c.inherited = (fun w => p.inherited w + p.completed w) ∧
    c.doneAtFork = (fun w => decide (onceState (p.control w) = ONCE_DONE)) ∧ c.owner = p.owner

end Steps

end OnceProcess

/-- Processes that use `pthread_once`. -/
def onceProcesses (T W : Type) [DecidableEq T] [DecidableEq W] : Forking (OnceProcess T W) :=
  ⟨OnceProcess.Start, OnceProcess.Step, OnceProcess.Fork⟩

/-! ### What every process looks like -/

/-- The call sets the generation of its process up. -/
def OncePC.SetsUp : OncePC → Prop
  | .genAdd | .genPub _ => True
  | _ => False

/-- From the start of the initializer until the word says what became of it. -/
def OncePC.Holds : OncePC → Prop
  | .init | .storeDone | .cancelStore => True
  | _ => False

/-- The call still has a wake-up to send. -/
def OncePC.Awakens : OncePC → Prop
  | .init | .storeDone | .cancelStore | .wakeDone | .cancelWake => True
  | _ => False

theorem OncePC.Holds.awakens {pc : OncePC} (h : pc.Holds) : pc.Awakens := by
  cases pc with
  | init => trivial
  | storeDone => trivial
  | cancelStore => trivial
  | _ => exact h.elim

namespace OnceMemory

variable {m n : OnceMemory W}

/-- The word is in progress in the generation of this process. -/
def Own (m : OnceMemory W) (w : W) : Prop :=
  m.oncePid = m.pid ∧ m.control w = m.onceGeneration + 1

/-- What a call on `w` at a program counter relies on. -/
def FrameOk (m : OnceMemory W) (w : W) : OncePC → Prop
  | .fast | .genLoad | .cancelWake => True
  | .genRead => m.oncePid = m.pid
  | .genCas seen => seen ≠ m.pid ∧ seen ≠ -m.pid
  | .genAdd => m.oncePid = -m.pid
  | .genPub seen =>
    m.oncePid = -m.pid ∧ seen = m.onceGeneration ∧ ∀ v, m.control v < m.onceGeneration
  | .check generation => m.oncePid = m.pid ∧ generation = m.onceGeneration
  | .cas generation current =>
    m.oncePid = m.pid ∧ generation = m.onceGeneration ∧ current ≠ m.onceGeneration + 1 ∧
      onceState current ≠ ONCE_DONE
  | .init | .cancelStore => m.Own w ∧ m.owner w = m.pid ∧ m.completed w = 0
  | .storeDone => m.Own w ∧ m.owner w = m.pid ∧ m.completed w = 1
  | .wait current => m.oncePid = m.pid ∧ m.owner w = m.pid ∧ current = m.onceGeneration + 1
  | .asleep => m.oncePid = m.pid ∧ m.owner w = m.pid
  | .wakeDone | .ret => 0 < m.completed w + m.inherited w

/-- What a control word can hold: nothing, DONE, a generation of an ancestor, or that of this
process. -/
inductive WordOk (m : OnceMemory W) (w : W) : Prop
  | clear (hc : m.control w = 0) (hn : m.completed w = 0)
  | done (hc : m.control w = ONCE_DONE) (hd : 0 < m.completed w + m.inherited w)
    (hn : m.completed w ≤ 1)
  | foreign (hs : onceState (m.control w) = ONCE_INPROGRESS)
    (hle : m.control w ≤ m.onceGeneration + 1)
    (hlt : m.oncePid = m.pid → m.control w < m.onceGeneration) (ho : m.owner w ≠ m.pid)
    (hn : m.completed w = 0)
  | own (hc : m.Own w) (ho : m.owner w = m.pid) (hn : m.completed w ≤ 1)

structure Ok (m : OnceMemory W) : Prop where
  pid : 0 < m.pid ∧ m.pid ∉ m.ancestors ∧ ∀ r ∈ m.ancestors, 0 < r
  oncePid : m.oncePid = 0 ∨ ∃ r ∈ m.pid :: m.ancestors, m.oncePid = r ∨ m.oncePid = -r
  generation : m.onceGeneration = 4 * m.generations ∧ m.generations < 2 ^ 30
  owner : ∀ w, m.owner w = 0 ∨ m.owner w ∈ m.pid :: m.ancestors
  words : ∀ w, m.WordOk w
  forked : ∀ w, m.doneAtFork w = true → m.control w = ONCE_DONE ∧ m.completed w = 0

theorem or_inprogress (h : m.onceGeneration = 4 * m.generations) :
    m.onceGeneration ||| ONCE_INPROGRESS = m.onceGeneration + 1 := by
  rw [h]
  exact (Nat.two_pow_add_eq_or_of_lt (i := 2) (b := 1) (by decide) m.generations).symm

namespace Ok

theorem pid_ne_neg (h : m.Ok) : (m.pid : ℤ) ≠ -m.pid := by
  have := h.pid.1
  omega

theorem claimPid (h : m.Ok) (hn : m.oncePid ≠ m.pid) : { m with oncePid := -m.pid }.Ok where
  pid := h.pid
  oncePid := .inr ⟨m.pid, by simp, .inr rfl⟩
  generation := h.generation
  owner := h.owner
  words v := by
    cases h.words v with
    | clear hc hn => exact .clear hc hn
    | done hc hd hn => exact .done hc hd hn
    | foreign hs hle hlt ho hn => exact .foreign hs hle (fun he => absurd he.symm h.pid_ne_neg) ho hn
    | own hc ho hn' => exact absurd hc.1 hn
  forked := h.forked

theorem addGeneration (h : m.Ok) (hp : m.oncePid = -m.pid) (hg : m.generations + 1 < 2 ^ 30) :
    { m with
      onceGeneration := (m.onceGeneration + ONCE_GEN_INCR) % 2 ^ 32
      generations := m.generations + 1 }.Ok where
  pid := h.pid
  oncePid := h.oncePid
  generation := by
    have := h.generation
    simp only [ONCE_GEN_INCR]
    omega
  owner := h.owner
  words v := by
    have hgen := h.generation
    have hle' : m.onceGeneration ≤ (m.onceGeneration + ONCE_GEN_INCR) % 2 ^ 32 := by
      simp only [ONCE_GEN_INCR]
      omega
    cases h.words v with
    | clear hc hn => exact .clear hc hn
    | done hc hd hn => exact .done hc hd hn
    | foreign hs hle hlt ho hn =>
      exact .foreign hs (by dsimp only; omega)
        (fun he => absurd (he.symm.trans hp) h.pid_ne_neg) ho hn
    | own hc ho hn => exact absurd (hc.1.symm.trans hp) h.pid_ne_neg
  forked := h.forked

/-- While the generation is being set up, every control word is from before. -/
theorem control_lt (h : m.Ok) (hp : m.oncePid = -m.pid) (hg : m.generations + 1 < 2 ^ 30) (v : W) :
    m.control v < (m.onceGeneration + ONCE_GEN_INCR) % 2 ^ 32 := by
  have hgen := h.generation
  have hmod : (m.onceGeneration + ONCE_GEN_INCR) % 2 ^ 32 = m.onceGeneration + 4 := by
    simp only [ONCE_GEN_INCR]
    omega
  rw [hmod]
  cases h.words v with
  | clear hc hn => omega
  | done hc hd hn =>
    rw [hc]
    simp only [ONCE_DONE]
    omega
  | foreign hs hle hlt ho hn => omega
  | own hc ho hn => exact absurd (hc.1.symm.trans hp) h.pid_ne_neg

theorem publishPid (h : m.Ok) (hp : m.oncePid = -m.pid)
    (hlt : ∀ v, m.control v < m.onceGeneration) : { m with oncePid := m.pid }.Ok where
  pid := h.pid
  oncePid := .inr ⟨m.pid, by simp, .inl rfl⟩
  generation := h.generation
  owner := h.owner
  words v := by
    cases h.words v with
    | clear hc hn => exact .clear hc hn
    | done hc hd hn => exact .done hc hd hn
    | foreign hs hle _ ho hn => exact .foreign hs hle (fun _ => hlt v) ho hn
    | own hc ho hn => exact absurd (hc.1.symm.trans hp) h.pid_ne_neg
  forked := h.forked

/-- What a word that is neither DONE nor in progress here can hold. -/
theorem completed_eq_zero (h : m.Ok) {w : W} (hn : ¬m.Own w)
    (hd : onceState (m.control w) ≠ ONCE_DONE) : m.completed w = 0 := by
  cases h.words w with
  | clear hc hn => exact hn
  | done hc _ _ => exact absurd (by rw [hc]; rfl) hd
  | foreign _ _ _ _ hn => exact hn
  | own hc _ _ => exact absurd hc hn

theorem own_ne_done (h : m.Ok) {w : W} (ho : m.Own w) : m.control w ≠ ONCE_DONE := by
  have := h.generation
  rw [ho.2]
  simp only [ONCE_DONE]
  omega

end Ok

/-- Only the control words and what is known of them differ. -/
def SameProcess (m n : OnceMemory W) : Prop :=
  n.pid = m.pid ∧ n.ancestors = m.ancestors ∧ n.oncePid = m.oncePid ∧
    n.onceGeneration = m.onceGeneration ∧ n.generations = m.generations ∧
    n.inherited = m.inherited ∧ n.doneAtFork = m.doneAtFork

def SameWord (m n : OnceMemory W) (w : W) : Prop :=
  n.control w = m.control w ∧ n.completed w = m.completed w ∧ n.owner w = m.owner w

theorem WordOk.congr {v : W} (h : m.WordOk v) (hs : m.SameProcess n) (hw : m.SameWord n v) :
    n.WordOk v := by
  obtain ⟨hp, -, ho, hg, -, hi, -⟩ := hs
  obtain ⟨hc, hn, hw⟩ := hw
  cases h with
  | clear h₁ h₂ => exact .clear (hc.trans h₁) (hn.trans h₂)
  | done h₁ h₂ h₃ => exact .done (hc.trans h₁) (by rwa [hn, hi]) (by rwa [hn])
  | foreign h₁ h₂ h₃ h₄ h₅ =>
    exact .foreign (by rwa [hc]) (by rwa [hc, hg]) (by rwa [ho, hp, hc, hg]) (by rwa [hw, hp])
      (hn.trans h₅)
  | own h₁ h₂ h₃ =>
    exact .own ⟨by rw [ho, hp, h₁.1], by rw [hc, hg, h₁.2]⟩ (by rw [hw, hp, h₂]) (by rwa [hn])

/-- One word changes, and was not DONE when the process was forked. -/
theorem Ok.setWord (h : m.Ok) (hs : m.SameProcess n) {w : W} (hoth : ∀ v, v ≠ w → m.SameWord n v)
    (ho : n.owner w = m.owner w ∨ n.owner w = m.pid) (hw : n.WordOk w)
    (hf : m.doneAtFork w ≠ true) : n.Ok where
  pid := by
    rw [hs.1, hs.2.1]
    exact h.pid
  oncePid := by
    rw [hs.1, hs.2.1, hs.2.2.1]
    exact h.oncePid
  generation := by
    rw [hs.2.2.2.1, hs.2.2.2.2.1]
    exact h.generation
  owner v := by
    rw [hs.1, hs.2.1]
    by_cases hv : v = w
    · subst hv
      rcases ho with ho | ho
      · rw [ho]
        exact h.owner v
      · rw [ho]
        exact .inr (by simp)
    · rw [(hoth v hv).2.2]
      exact h.owner v
  words v := by
    by_cases hv : v = w
    · exact hv ▸ hw
    · exact (h.words v).congr hs (hoth v hv)
  forked v hd := by
    rw [hs.2.2.2.2.2.2] at hd
    have hv : v ≠ w := fun he => hf (he ▸ hd)
    rw [(hoth v hv).1, (hoth v hv).2.1]
    exact h.forked v hd

/-- What a call relies on survives changes to words that it does not hold. -/
theorem FrameOk.mono {v : W} {pc : OncePC} (h : m.FrameOk v pc) (hs : m.SameProcess n)
    (hset : ¬pc.SetsUp)
    (hhold : pc.Holds → n.control v = m.control v ∧ n.completed v = m.completed v)
    (ho : m.owner v = m.pid → n.owner v = m.pid) (hn : m.completed v ≤ n.completed v) :
    n.FrameOk v pc := by
  obtain ⟨hp, -, hop, hg, -, hi, -⟩ := hs
  have hheld : pc.Holds → m.Own v → n.Own v := fun hh ho =>
    ⟨by rw [hop, hp, ho.1], by rw [(hhold hh).1, hg, ho.2]⟩
  cases pc with
  | fast => trivial
  | genLoad => trivial
  | cancelWake => trivial
  | genAdd => exact absurd trivial hset
  | genPub seen => exact absurd trivial hset
  | genRead => simpa only [FrameOk, hop, hp] using h
  | genCas seen => simpa only [FrameOk, hp] using h
  | check g => simpa only [FrameOk, hop, hp, hg] using h
  | cas g c => simpa only [FrameOk, hop, hp, hg] using h
  | init => exact ⟨hheld trivial h.1, by rw [hp, ho h.2.1], by rw [(hhold trivial).2, h.2.2]⟩
  | cancelStore => exact ⟨hheld trivial h.1, by rw [hp, ho h.2.1], by rw [(hhold trivial).2, h.2.2]⟩
  | storeDone => exact ⟨hheld trivial h.1, by rw [hp, ho h.2.1], by rw [(hhold trivial).2, h.2.2]⟩
  | wait c => exact ⟨by rw [hop, hp, h.1], by rw [hp, ho h.2.1], by rw [hg, h.2.2]⟩
  | asleep => exact ⟨by rw [hop, hp, h.1], by rw [hp, ho h.2]⟩
  | wakeDone =>
    simp only [FrameOk, hi] at h ⊢
    omega
  | ret =>
    simp only [FrameOk, hi] at h ⊢
    omega

/-- A call can only rely on `once_pid` being neither its process nor in transition, or be past it. -/
theorem FrameOk.stale {v : W} {pc : OncePC} (h : m.FrameOk v pc) (hp : m.oncePid ≠ m.pid)
    (hn : m.oncePid ≠ -m.pid ∨ ¬pc.SetsUp) (hs : n.pid = m.pid)
    (hd : m.completed v + m.inherited v ≤ n.completed v + n.inherited v) : n.FrameOk v pc := by
  cases pc with
  | fast => trivial
  | genLoad => trivial
  | cancelWake => trivial
  | genAdd => exact absurd h (hn.resolve_right fun hn => hn trivial)
  | genPub seen => exact absurd h.1 (hn.resolve_right fun hn => hn trivial)
  | genRead => exact absurd h hp
  | genCas seen => simpa only [FrameOk, hs] using h
  | check g => exact absurd h.1 hp
  | cas g c => exact absurd h.1 hp
  | init => exact absurd h.1.1 hp
  | cancelStore => exact absurd h.1.1 hp
  | storeDone => exact absurd h.1.1 hp
  | wait c => exact absurd h.1 hp
  | asleep => exact absurd h.1 hp
  | wakeDone =>
    simp only [FrameOk] at h ⊢
    omega
  | ret =>
    simp only [FrameOk] at h ⊢
    omega

end OnceMemory

namespace OnceProcess

variable {p q : OnceProcess T W} {a b : T × ℕ} {w : W} {pc : OncePC} {f : OnceFrame W}

/-- An initializer of this process runs for `w`. -/
def Held (p : OnceProcess T W) (w : W) : Prop :=
  ∃ b f, p.frame b = some f ∧ f.word = w ∧ f.pc.Holds

/-- The sleepers on `w` are going to be woken up. -/
def Awaited (p : OnceProcess T W) (w : W) : Prop :=
  ∃ b f, p.frame b = some f ∧ f.word = w ∧ f.pc.Awakens

structure Inv (p : OnceProcess T W) : Prop where
  memory : p.toOnceMemory.Ok
  frames : ∀ a f, p.frame a = some f → p.FrameOk f.word f.pc
  setup : ∀ a b f g, p.frame a = some f → p.frame b = some g → f.pc.SetsUp → g.pc.SetsUp → a = b
  single : ∀ a b f g, p.frame a = some f → p.frame b = some g → f.word = g.word →
    f.pc.Holds → g.pc.Holds → a = b
  held : ∀ w, p.Own w → p.Held w
  sleepers : ∀ a w, p.frame a = some ⟨w, .asleep⟩ → p.Awaited w

theorem frame_wakeAll [DecidableEq W] (hpc : pc ≠ .asleep) (ha : p.frame a = some ⟨w, pc⟩) :
    (p.wakeAll w).frame a = some ⟨w, pc⟩ := by
  simp only [OnceProcess.wakeAll]
  rw [if_neg, ha]
  rw [ha, Option.some.injEq, OnceFrame.mk.injEq]
  exact fun he => hpc he.2

theorem frame_wakeAll_ne [DecidableEq W] (p : OnceProcess T W) (w : W) (b : T × ℕ) :
    (p.wakeAll w).frame b ≠ some ⟨w, .asleep⟩ := by
  simp only [OnceProcess.wakeAll]
  split
  · simp
  · assumption

namespace Inv

/-- Calls change in such a way that none sets up or holds what it did not before. -/
theorem reframe (h : p.Inv) (hm : q.toOnceMemory.Ok)
    (hok : ∀ b f, q.frame b = some f → q.FrameOk f.word f.pc)
    (hset : ∀ b f, q.frame b = some f → f.pc.SetsUp → ∃ g, p.frame b = some g ∧ g.pc.SetsUp)
    (hhold : ∀ b f, q.frame b = some f → f.pc.Holds →
      ∃ g, p.frame b = some g ∧ g.word = f.word ∧ g.pc.Holds)
    (hheld : ∀ v, q.Own v → q.Held v)
    (hsleep : ∀ b v, q.frame b = some ⟨v, .asleep⟩ → q.Awaited v) : q.Inv where
  memory := hm
  frames := hok
  setup b c f g hb hc hf hg := by
    obtain ⟨f', hb', hf'⟩ := hset b f hb hf
    obtain ⟨g', hc', hg'⟩ := hset c g hc hg
    exact h.setup b c f' g' hb' hc' hf' hg'
  single b c f g hb hc hw hf hg := by
    obtain ⟨f', hb', hwf, hf'⟩ := hhold b f hb hf
    obtain ⟨g', hc', hwg, hg'⟩ := hhold c g hc hg
    exact h.single b c f' g' hb' hc' (hwf.trans (hw.trans hwg.symm)) hf' hg'
  held := hheld
  sleepers := hsleep

/-- One call moves from `pc` to `next`; what the others rely on stays. -/
theorem update [DecidableEq T] {next : OncePC} (h : p.Inv) (ha : p.frame a = some ⟨w, pc⟩)
    (hfr : q.frame = Function.update p.frame a (some ⟨w, next⟩)) (hm : q.toOnceMemory.Ok)
    (hok : q.FrameOk w next)
    (hoth : ∀ b f, b ≠ a → p.frame b = some f → p.FrameOk f.word f.pc → q.FrameOk f.word f.pc)
    (hset : next.SetsUp → pc.SetsUp ∨ ∀ b f, p.frame b = some f → ¬f.pc.SetsUp)
    (hhold : next.Holds → pc.Holds ∨ ∀ b f, p.frame b = some f → f.word = w → ¬f.pc.Holds)
    (hheld : ∀ v, q.Own v → v = w ∧ next.Holds ∨ p.Own v ∧ (v = w → pc.Holds → next.Holds))
    (hwake : pc.Awakens → next.Awakens ∨ ∀ b, p.frame b ≠ some ⟨w, .asleep⟩)
    (hsleep : next = .asleep → p.Awaited w ∧ ¬pc.Awakens) : q.Inv := by
  have hself : q.frame a = some ⟨w, next⟩ := by rw [hfr, Function.update_self]
  have hother : ∀ b, b ≠ a → q.frame b = p.frame b := fun b hb => by
    rw [hfr, Function.update_of_ne hb]
  have hcases : ∀ b f, q.frame b = some f →
      b = a ∧ f = ⟨w, next⟩ ∨ b ≠ a ∧ p.frame b = some f := fun b f hb => by
    by_cases he : b = a
    · rw [he, hself, Option.some.injEq] at hb
      exact .inl ⟨he, hb.symm⟩
    · exact .inr ⟨he, by rwa [hother b he] at hb⟩
  refine ⟨hm, fun b f hb => ?_, fun b c f g hb hc hf hg => ?_, fun b c f g hb hc hw hf hg => ?_,
    fun v hv => ?_, fun b v hb => ?_⟩
  · rcases hcases b f hb with ⟨-, rfl⟩ | ⟨hne, hp⟩
    · exact hok
    · exact hoth b f hne hp (h.frames b f hp)
  · rcases hcases b f hb with ⟨rfl, rfl⟩ | ⟨-, hpb⟩ <;>
      rcases hcases c g hc with ⟨rfl, rfl⟩ | ⟨-, hpc⟩
    · rfl
    · rcases hset hf with hpc' | hno
      · exact h.setup _ _ _ _ ha hpc hpc' hg
      · exact absurd hg (hno c g hpc)
    · rcases hset hg with hpc' | hno
      · exact h.setup _ _ _ _ hpb ha hf hpc'
      · exact absurd hf (hno b f hpb)
    · exact h.setup _ _ _ _ hpb hpc hf hg
  · rcases hcases b f hb with ⟨rfl, rfl⟩ | ⟨-, hpb⟩ <;>
      rcases hcases c g hc with ⟨rfl, rfl⟩ | ⟨-, hpc⟩
    · rfl
    · rcases hhold hf with hpc' | hno
      · exact h.single _ _ _ _ ha hpc hw hpc' hg
      · exact absurd hg (hno c g hpc hw.symm)
    · rcases hhold hg with hpc' | hno
      · exact h.single _ _ _ _ hpb ha hw hf hpc'
      · exact absurd hf (hno b f hpb hw)
    · exact h.single _ _ _ _ hpb hpc hw hf hg
  · rcases hheld v hv with ⟨rfl, hn⟩ | ⟨hp, hkeep⟩
    · exact ⟨a, _, hself, rfl, hn⟩
    · obtain ⟨b, f, hb, rfl, hf⟩ := h.held v hp
      by_cases he : b = a
      · rw [he, ha, Option.some.injEq] at hb
        subst hb
        exact ⟨a, _, hself, rfl, hkeep rfl hf⟩
      · exact ⟨b, f, by rwa [hother b he], rfl, hf⟩
  · -- whoever was to wake `v` up still is, or has just found nobody asleep
    have hkeep : ∀ c f, p.frame c = some f → f.word = v → f.pc.Awakens →
        (c = a → next.Awakens) → q.Awaited v := fun c f hc hw hf hn => by
      by_cases he : c = a
      · rw [he, ha, Option.some.injEq] at hc
        subst hc
        exact ⟨a, _, hself, hw, hn he⟩
      · exact ⟨c, f, by rwa [hother c he], hw, hf⟩
    rcases hcases b _ hb with ⟨rfl, hf⟩ | ⟨hne, hp⟩
    · obtain ⟨rfl, rfl⟩ := OnceFrame.mk.inj hf
      obtain ⟨⟨c, f, hc, hw, hf⟩, hn⟩ := hsleep rfl
      refine hkeep c f hc hw hf fun he => absurd ?_ hn
      rw [he, ha, Option.some.injEq] at hc
      subst hc
      exact hf
    · obtain ⟨c, f, hc, hw, hf⟩ := h.sleepers b v hp
      refine hkeep c f hc hw hf fun he => ?_
      rw [he, ha, Option.some.injEq] at hc
      subst hc
      exact (hwake hf).resolve_right fun hno => hno b (by rw [hp, ← hw])

/-- Once the generation is there, nobody sets it up. -/
theorem not_setsUp (h : p.Inv) (hp : p.oncePid = p.pid) (hb : p.frame b = some f) :
    ¬f.pc.SetsUp := by
  have hok := h.frames b f hb
  have hne := h.memory.pid_ne_neg
  intro hs
  cases hpc : f.pc with
  | genAdd =>
    rw [hpc] at hok
    exact hne (hp.symm.trans hok)
  | genPub seen =>
    rw [hpc] at hok
    exact hne (hp.symm.trans hok.1)
  | _ => rw [hpc] at hs; exact hs

/-- Whoever holds a word holds it alone. -/
theorem alone (h : p.Inv) (ha : p.frame a = some ⟨w, pc⟩) (hh : pc.Holds) :
    ∀ b f, b ≠ a → p.frame b = some f → f.word = w → ¬f.pc.Holds :=
  fun b f hb hfb hw hf => hb (h.single b a f _ hfb ha hw hf hh)

/-- A word that reads DONE was completed. -/
theorem completed_of_done (h : p.Inv) (hd : onceState (p.control w) = ONCE_DONE) :
    0 < p.completed w + p.inherited w := by
  cases h.memory.words w with
  | clear hc hn => rw [hc] at hd; cases hd
  | done hc hd hn => exact hd
  | foreign hs hle hlt ho hn => rw [hs] at hd; cases hd
  | own hc ho hn =>
    have := h.memory.generation
    rw [hc.2] at hd
    simp only [onceState, ONCE_DONE] at hd
    omega

theorem wakeAll [DecidableEq W] (h : p.Inv) (w : W) : (p.wakeAll w).Inv := by
  have hsub : ∀ b f, (p.wakeAll w).frame b = some f →
      f.pc = .genLoad ∨ p.frame b = some f ∧ f ≠ ⟨w, .asleep⟩ := fun b f hb => by
    simp only [OnceProcess.wakeAll] at hb
    split at hb
    · exact .inl (by rw [← Option.some.inj hb])
    · rename_i hn
      exact .inr ⟨hb, fun he => hn (by rw [hb, he])⟩
  have hkeep : ∀ b f, p.frame b = some f → f.pc.Awakens → (p.wakeAll w).frame b = some f :=
    fun b f hb hf => by
      simp only [OnceProcess.wakeAll]
      rw [if_neg, hb]
      rw [hb, Option.some.injEq]
      rintro rfl
      exact hf
  refine h.reframe h.memory (fun b f hb => ?_) (fun b f hb hs => ?_) (fun b f hb hh => ?_)
    (fun v hv => ?_) fun b v hb => ?_
  · rcases hsub b f hb with hpc | ⟨hp, -⟩
    · rw [hpc]
      trivial
    · exact h.frames b f hp
  · rcases hsub b f hb with hpc | ⟨hp, -⟩
    · rw [hpc] at hs
      exact hs.elim
    · exact ⟨f, hp, hs⟩
  · rcases hsub b f hb with hpc | ⟨hp, -⟩
    · rw [hpc] at hh
      exact hh.elim
    · exact ⟨f, hp, rfl, hh⟩
  · obtain ⟨b, f, hb, hw, hf⟩ := h.held v hv
    exact ⟨b, f, hkeep b f hb hf.awakens, hw, hf⟩
  · rcases hsub b _ hb with hpc | ⟨hp, -⟩
    · cases hpc
    · obtain ⟨c, f, hc, hw, hf⟩ := h.sleepers b v hp
      exact ⟨c, f, hkeep c f hc hf, hw, hf⟩

section Steps

variable [DecidableEq T]

/-- Only the program counter of one call changes. -/
theorem move (h : p.Inv) {next : OncePC} (ha : p.frame a = some ⟨w, pc⟩) (hok : p.FrameOk w next)
    (hset : ¬next.SetsUp) (hhold : ¬next.Holds) (hawake : ¬pc.Awakens)
    (hsleep : next = .asleep → p.Awaited w) : (p.setFrame a (some ⟨w, next⟩)).Inv :=
  h.update ha rfl h.memory hok (fun _ _ _ _ hf => hf) (fun hn => absurd hn hset)
    (fun hn => absurd hn hhold) (fun _ hv => .inr ⟨hv, fun _ hpc => absurd hpc.awakens hawake⟩)
    (fun hpc => absurd hpc hawake) fun hn => ⟨hsleep hn, hawake⟩

/-- A call moves on and changes its word only, which no other call holds. -/
theorem updateWord (h : p.Inv) {next : OncePC} (ha : p.frame a = some ⟨w, pc⟩)
    (hfr : q.frame = Function.update p.frame a (some ⟨w, next⟩)) (hp : p.oncePid = p.pid)
    (hs : p.SameProcess q.toOnceMemory) (hoth : ∀ v, v ≠ w → p.SameWord q.toOnceMemory v)
    (ho : q.owner w = p.pid) (hn : p.completed w ≤ q.completed w) (hw : q.WordOk w)
    (hf : p.doneAtFork w ≠ true) (hok : q.FrameOk w next) (hset : ¬next.SetsUp)
    (hhold : ∀ b f, b ≠ a → p.frame b = some f → f.word = w → ¬f.pc.Holds)
    (hheld : q.Own w → next.Holds) (hwake : pc.Awakens → next.Awakens) (hsleep : next ≠ .asleep)
    (hnew : next.Holds → pc.Holds ∨ ∀ b f, p.frame b = some f → f.word = w → ¬f.pc.Holds) :
    q.Inv := by
  refine h.update ha hfr (h.memory.setWord hs hoth (.inr ho) hw hf) hok (fun b f hb hfb hfo => ?_)
    (fun hn => absurd hn hset) hnew (fun v hv => ?_) (fun hpc => .inl (hwake hpc))
    fun he => absurd he hsleep
  · by_cases hv : f.word = w
    · rw [hv] at hfo ⊢
      exact hfo.mono hs (h.not_setsUp hp hfb) (fun hh => absurd hh (hhold b f hb hfb hv))
        (fun _ => ho) hn
    · obtain ⟨hc, hn, hw⟩ := hoth f.word hv
      exact hfo.mono hs (h.not_setsUp hp hfb) (fun _ => ⟨hc, hn⟩) (fun ho => hw.trans ho) hn.ge
  · by_cases hvw : v = w
    · exact .inl ⟨hvw, hheld (hvw ▸ hv)⟩
    · refine .inr ⟨⟨hp, ?_⟩, fun he => absurd he hvw⟩
      rw [← (hoth v hvw).1, hv.2, hs.2.2.2.1]

theorem call (h : p.Inv) (w : W) (ha : p.frame a = none) : (p.setFrame a (some ⟨w, .fast⟩)).Inv := by
  have hsub : ∀ b f, (p.setFrame a (some ⟨w, .fast⟩)).frame b = some f →
      f = ⟨w, .fast⟩ ∨ p.frame b = some f := fun b f hb => by
    by_cases he : b = a
    · rw [he, frame_setFrame_self, Option.some.injEq] at hb
      exact .inl hb.symm
    · exact .inr (by rwa [frame_setFrame_of_ne _ _ he] at hb)
  have hkeep : ∀ b f, p.frame b = some f → (p.setFrame a (some ⟨w, .fast⟩)).frame b = some f :=
    fun b f hb => by
      rw [frame_setFrame_of_ne _ _ fun he => ?_, hb]
      rw [he, ha] at hb
      cases hb
  refine h.reframe h.memory (fun b f hb => ?_) (fun b f hb hs => ?_) (fun b f hb hh => ?_)
    (fun v hv => ?_) fun b v hb => ?_
  · rcases hsub b f hb with rfl | hp
    · trivial
    · exact h.frames b f hp
  · rcases hsub b f hb with rfl | hp
    · exact hs.elim
    · exact ⟨f, hp, hs⟩
  · rcases hsub b f hb with rfl | hp
    · exact hh.elim
    · exact ⟨f, hp, rfl, hh⟩
  · obtain ⟨b, f, hb, hw, hf⟩ := h.held v hv
    exact ⟨b, f, hkeep b f hb, hw, hf⟩
  · rcases hsub b _ hb with he | hp
    · cases he
    · obtain ⟨c, f, hc, hw, hf⟩ := h.sleepers b v hp
      exact ⟨c, f, hkeep c f hc, hw, hf⟩

/-- A call that holds nothing ends. -/
theorem leave (h : p.Inv) (ha : p.frame a = some ⟨w, pc⟩) (hh : ¬pc.Holds)
    (hs : pc.Awakens → ∀ b, p.frame b ≠ some ⟨w, .asleep⟩) : (p.setFrame a none).Inv := by
  have hsub : ∀ b f, (p.setFrame a none).frame b = some f → b ≠ a ∧ p.frame b = some f :=
    fun b f hb => by
      by_cases he : b = a
      · rw [he, frame_setFrame_self] at hb
        cases hb
      · exact ⟨he, by rwa [frame_setFrame_of_ne _ _ he] at hb⟩
  have hkeep : ∀ b f, p.frame b = some f → (b = a → f ≠ ⟨w, pc⟩) →
      (p.setFrame a none).frame b = some f := fun b f hb hn => by
    rw [frame_setFrame_of_ne _ _ fun he => ?_, hb]
    rw [he, ha, Option.some.injEq] at hb
    exact hn he hb.symm
  refine h.reframe h.memory (fun b f hb => h.frames b f (hsub b f hb).2)
    (fun b f hb hs => ⟨f, (hsub b f hb).2, hs⟩) (fun b f hb hh => ⟨f, (hsub b f hb).2, rfl, hh⟩)
    (fun v hv => ?_) fun b v hb => ?_
  · obtain ⟨b, f, hb, hw, hf⟩ := h.held v hv
    refine ⟨b, f, hkeep b f hb fun _ he => hh ?_, hw, hf⟩
    rwa [he] at hf
  · have hp := (hsub b _ hb).2
    obtain ⟨c, f, hc, hw, hf⟩ := h.sleepers b v hp
    refine ⟨c, f, hkeep c f hc fun _ he => ?_, hw, hf⟩
    subst he
    exact hs hf b (by rw [hp, ← hw])

/-- The cleanup handlers take over what the cancelled initializers hold. -/
theorem cancel (h : p.Inv) (t : T) : (p.cancel t).Inv := by
  have hsub : ∀ b f, (p.cancel t).frame b = some f → p.frame b = some f ∨
      f.pc = .cancelStore ∧ p.frame b = some ⟨f.word, .init⟩ := fun b f hb => by
    simp only [OnceProcess.cancel] at hb
    split at hb
    · obtain ⟨g, hg, rfl⟩ := Option.map_eq_some_iff.mp hb
      by_cases hi : g.pc = .init
      · exact .inr ⟨if_pos hi, by rw [hg, ← hi]⟩
      · exact .inl (by rw [hg, if_neg hi])
    · exact .inl hb
  have hkeep : ∀ b f, p.frame b = some f → ∃ g, (p.cancel t).frame b = some g ∧ g.word = f.word ∧
      (f.pc.Holds → g.pc.Holds) ∧ (f.pc.Awakens → g.pc.Awakens) := fun b f hb => by
    simp only [OnceProcess.cancel, hb]
    split
    · refine ⟨_, rfl, rfl, fun hf => ?_, fun hf => ?_⟩
      · dsimp only
        split
        · trivial
        · exact hf
      · dsimp only
        split
        · trivial
        · exact hf
    · exact ⟨f, rfl, rfl, id, id⟩
  refine h.reframe h.memory (fun b f hb => ?_) (fun b f hb hs => ?_) (fun b f hb hh => ?_)
    (fun v hv => ?_) fun b v hb => ?_
  · rcases hsub b f hb with hp | ⟨hpc, hp⟩
    · exact h.frames b f hp
    · rw [hpc]
      exact h.frames b _ hp
  · rcases hsub b f hb with hp | ⟨hpc, hp⟩
    · exact ⟨f, hp, hs⟩
    · rw [hpc] at hs
      exact hs.elim
  · rcases hsub b f hb with hp | ⟨hpc, hp⟩
    · exact ⟨f, hp, rfl, hh⟩
    · exact ⟨_, hp, rfl, trivial⟩
  · obtain ⟨b, f, hb, rfl, hf⟩ := h.held v hv
    obtain ⟨g, hg, hw, hh, -⟩ := hkeep b f hb
    exact ⟨b, g, hg, hw, hh hf⟩
  · rcases hsub b _ hb with hp | ⟨hpc, -⟩
    · obtain ⟨c, f, hc, rfl, hf⟩ := h.sleepers b v hp
      obtain ⟨g, hg, hw, -, hh⟩ := hkeep c f hc
      exact ⟨c, g, hg, hw, hh hf⟩
    · cases hpc

variable [DecidableEq W]

theorem genCas (h : p.Inv) {seen : ℤ} (ha : p.frame a = some ⟨w, .genCas seen⟩) :
    (p.advance a w (.genCas seen)).Inv := by
  have hok := h.frames a _ ha
  unfold advance
  dsimp only
  split
  · rename_i heq
    have hp : p.oncePid ≠ p.pid := heq ▸ hok.1
    have hn : p.oncePid ≠ -p.pid := heq ▸ hok.2
    have hno : ∀ b f, p.frame b = some f → ¬f.pc.SetsUp := fun b f hb hs => by
      have hf := h.frames b f hb
      cases hpc : f.pc with
      | genAdd => rw [hpc] at hf; exact hn hf
      | genPub seen => rw [hpc] at hf; exact hn hf.1
      | _ => rw [hpc] at hs; exact hs
    exact h.update ha rfl (h.memory.claimPid hp) rfl
      (fun b f _ _ hf => hf.stale hp (.inl hn) rfl le_rfl) (fun _ => .inr hno) (fun hh => hh.elim)
      (fun v hv => absurd hv.1.symm h.memory.pid_ne_neg) (fun hh => hh.elim) fun he => by cases he
  · exact h.move ha trivial id id id fun he => by cases he

theorem genAdd (h : p.Inv) (ha : p.frame a = some ⟨w, .genAdd⟩) (hg : p.generations + 1 < 2 ^ 30) :
    (p.advance a w .genAdd).Inv := by
  have hp : p.oncePid = -p.pid := h.frames a _ ha
  have hne : p.oncePid ≠ p.pid := fun he => h.memory.pid_ne_neg (he.symm.trans hp)
  exact h.update ha rfl (h.memory.addGeneration hp hg) ⟨hp, rfl, h.memory.control_lt hp hg⟩
    (fun b f hb hfb hf => hf.stale hne (.inr fun hs => hb (h.setup _ _ _ _ hfb ha hs trivial)) rfl
      le_rfl) (fun _ => .inl trivial) (fun hh => hh.elim) (fun v hv => absurd hv.1 hne)
    (fun hh => hh.elim) fun he => by cases he

theorem genPub (h : p.Inv) {seen : ℕ} (ha : p.frame a = some ⟨w, .genPub seen⟩) :
    (p.advance a w (.genPub seen)).Inv := by
  obtain ⟨hp, hseen, hlt⟩ := h.frames a _ ha
  have hne : p.oncePid ≠ p.pid := fun he => h.memory.pid_ne_neg (he.symm.trans hp)
  have hgen : onceGen seen = p.onceGeneration := by
    have := h.memory.generation
    rw [hseen, onceGen]
    omega
  refine h.update ha rfl (h.memory.publishPid hp hlt) ⟨rfl, hgen⟩
    (fun b f hb hfb hf => hf.stale hne (.inr fun hs => hb (h.setup _ _ _ _ hfb ha hs trivial)) rfl
      le_rfl) (fun hs => hs.elim) (fun hh => hh.elim) (fun v hv => ?_) (fun hh => hh.elim)
    fun he => by cases he
  have hc : p.control v = p.onceGeneration + 1 := hv.2
  have := hlt v
  omega

theorem cas (h : p.Inv) {g c : ℕ} (ha : p.frame a = some ⟨w, .cas g c⟩) :
    (p.advance a w (.cas g c)).Inv := by
  obtain ⟨hp, hg, hc, hd⟩ := h.frames a _ ha
  unfold advance
  dsimp only
  split
  · rename_i heq
    have hno : ¬p.Own w := fun ho => hc (heq ▸ ho.2)
    have hd : onceState (p.control w) ≠ ONCE_DONE := heq ▸ hd
    have hcomp := h.memory.completed_eq_zero hno hd
    have hnobody : ∀ b f, p.frame b = some f → f.word = w → ¬f.pc.Holds := fun b f hb hw hh => by
      have hf := h.frames b f hb
      rw [hw] at hf
      cases hpc : f.pc with
      | init => rw [hpc] at hf; exact hno hf.1
      | cancelStore => rw [hpc] at hf; exact hno hf.1
      | storeDone => rw [hpc] at hf; exact hno hf.1
      | _ => rw [hpc] at hh; exact hh
    have hor : g ||| ONCE_INPROGRESS = p.onceGeneration + 1 := by
      rw [hg, OnceMemory.or_inprogress h.memory.generation.1]
    have hown : Function.update p.control w (g ||| ONCE_INPROGRESS) w = p.onceGeneration + 1 := by
      rw [Function.update_self, hor]
    have howner : Function.update p.owner w p.pid w = p.pid := Function.update_self ..
    exact h.updateWord ha rfl hp ⟨rfl, rfl, rfl, rfl, rfl, rfl, rfl⟩
      (fun v hv => ⟨Function.update_of_ne hv .., rfl, Function.update_of_ne hv ..⟩) howner le_rfl
      (.own ⟨hp, hown⟩ howner (hcomp.le.trans zero_le_one))
      (fun hf => hd (by rw [(h.memory.forked w hf).1]; rfl)) ⟨⟨hp, hown⟩, howner, hcomp⟩ id
      (fun b f _ hb => hnobody b f hb) (fun _ => trivial) (fun hh => hh.elim)
      (fun he => by cases he) fun _ => .inr hnobody
  · exact h.move ha trivial id id id fun he => by cases he

theorem init (h : p.Inv) (ha : p.frame a = some ⟨w, .init⟩) : (p.advance a w .init).Inv := by
  obtain ⟨hown, ho, hn⟩ := h.frames a _ ha
  have hone : Function.update p.completed w (p.completed w + 1) w = 1 := by
    rw [Function.update_self, hn]
  exact h.updateWord ha rfl hown.1 ⟨rfl, rfl, rfl, rfl, rfl, rfl, rfl⟩
    (fun v hv => ⟨rfl, Function.update_of_ne hv .., rfl⟩) ho (by rw [hn]; exact Nat.zero_le _)
    (.own hown ho hone.le) (fun hf => h.memory.own_ne_done hown (h.memory.forked w hf).1)
    ⟨hown, ho, hone⟩ id (h.alone ha trivial) (fun _ => trivial) (fun _ => trivial)
    (fun he => by cases he) fun _ => .inl trivial

theorem storeDone (h : p.Inv) (ha : p.frame a = some ⟨w, .storeDone⟩) :
    (p.advance a w .storeDone).Inv := by
  obtain ⟨hown, ho, hn⟩ : p.Own w ∧ p.owner w = p.pid ∧ p.completed w = 1 := h.frames a _ ha
  have hdone : Function.update p.control w ONCE_DONE w = ONCE_DONE := Function.update_self ..
  have hpos : 0 < p.completed w + p.inherited w := by omega
  refine h.updateWord ha rfl hown.1 ⟨rfl, rfl, rfl, rfl, rfl, rfl, rfl⟩
    (fun v hv => ⟨Function.update_of_ne hv .., rfl, rfl⟩) ho le_rfl (.done hdone hpos hn.le)
    (fun hf => h.memory.own_ne_done hown (h.memory.forked w hf).1) hpos id (h.alone ha trivial)
    (fun hq => ?_) (fun _ => trivial) (fun he => by cases he) fun hh => hh.elim
  have hc : ONCE_DONE = p.onceGeneration + 1 := hdone.symm.trans hq.2
  have := h.memory.generation
  simp only [ONCE_DONE] at hc
  omega

theorem cancelStore (h : p.Inv) (ha : p.frame a = some ⟨w, .cancelStore⟩) :
    (p.advance a w .cancelStore).Inv := by
  obtain ⟨hown, ho, hn⟩ := h.frames a _ ha
  have hzero : Function.update p.control w 0 w = 0 := Function.update_self ..
  refine h.updateWord ha rfl hown.1 ⟨rfl, rfl, rfl, rfl, rfl, rfl, rfl⟩
    (fun v hv => ⟨Function.update_of_ne hv .., rfl, rfl⟩) ho le_rfl (.clear hzero hn)
    (fun hf => h.memory.own_ne_done hown (h.memory.forked w hf).1) trivial id (h.alone ha trivial)
    (fun hq => ?_) (fun _ => trivial) (fun he => by cases he) fun hh => hh.elim
  have hc : 0 = p.onceGeneration + 1 := hzero.symm.trans hq.2
  omega

theorem fast (h : p.Inv) (ha : p.frame a = some ⟨w, .fast⟩) : (p.advance a w .fast).Inv := by
  unfold advance
  dsimp only
  split
  · rename_i hd
    exact h.move ha (h.completed_of_done hd) id id id fun he => by cases he
  · exact h.move ha trivial id id id fun he => by cases he

theorem genLoad (h : p.Inv) (ha : p.frame a = some ⟨w, .genLoad⟩) :
    (p.advance a w .genLoad).Inv := by
  unfold advance
  dsimp only
  split
  · rename_i hp
    exact h.move ha hp id id id fun he => by cases he
  split
  · exact h.move ha trivial id id id fun he => by cases he
  · exact h.move ha ⟨‹_›, ‹_›⟩ id id id fun he => by cases he

/-- Only a word in progress in the own generation is waited on. -/
theorem check (h : p.Inv) {g : ℕ} (ha : p.frame a = some ⟨w, .check g⟩) :
    (p.advance a w (.check g)).Inv := by
  obtain ⟨hp, rfl⟩ : p.oncePid = p.pid ∧ g = p.onceGeneration := h.frames a _ ha
  have hgen := h.memory.generation
  unfold advance
  dsimp only
  split
  · rename_i hd
    exact h.move ha (h.completed_of_done hd) id id id fun he => by cases he
  rename_i hd
  split
  · rename_i hfree
    refine h.move ha ⟨hp, rfl, fun hc => ?_, hd⟩ id id id fun he => by cases he
    rw [hc, ← OnceMemory.or_inprogress hgen.1] at hfree
    rcases hfree with hfree | hfree
    · rw [OnceMemory.or_inprogress hgen.1, ONCE_INPROGRESS, Nat.and_one_is_mod] at hfree
      omega
    · rw [OnceMemory.or_inprogress hgen.1, onceGen] at hfree
      omega
  · rename_i hbusy
    push Not at hbusy
    obtain ⟨hbit, hg⟩ := hbusy
    rw [ONCE_INPROGRESS, Nat.and_one_is_mod] at hbit
    simp only [onceGen] at hg
    have ⟨hc, ho⟩ : p.control w = p.onceGeneration + 1 ∧ p.owner w = p.pid := by
      cases h.memory.words w with
      | clear hc hn => omega
      | done hc _ _ => exact absurd (by rw [hc]; rfl) hd
      | foreign hs _ hlt _ _ =>
        have := hlt hp
        omega
      | own hc ho _ => exact ⟨hc.2, ho⟩
    exact h.move ha ⟨hp, ho, hc⟩ id id id fun he => by cases he

/-- Whoever goes to sleep has an initializer to wake it up. -/
theorem wait (h : p.Inv) {c : ℕ} (ha : p.frame a = some ⟨w, .wait c⟩) :
    (p.advance a w (.wait c)).Inv := by
  obtain ⟨hp, ho, hc⟩ : p.oncePid = p.pid ∧ p.owner w = p.pid ∧ c = p.onceGeneration + 1 :=
    h.frames a _ ha
  unfold advance
  dsimp only
  split
  · rename_i heq
    refine h.move ha ⟨hp, ho⟩ id id id fun _ => ?_
    obtain ⟨b, f, hb, hw, hf⟩ := h.held w ⟨hp, heq.trans hc⟩
    exact ⟨b, f, hb, hw, hf.awakens⟩
  · exact h.move ha trivial id id id fun he => by cases he

theorem wakeDone (h : p.Inv) (ha : p.frame a = some ⟨w, .wakeDone⟩) :
    (p.advance a w .wakeDone).Inv :=
  (h.wakeAll w).update (frame_wakeAll (by simp) ha) rfl h.memory (h.frames a _ ha)
    (fun _ _ _ _ hf => hf) (fun hs => hs.elim) (fun hh => hh.elim)
    (fun _ hv => .inr ⟨hv, fun _ hh => hh.elim⟩) (fun _ => .inr (frame_wakeAll_ne p w))
    fun he => by cases he

theorem cancelWake (h : p.Inv) (ha : p.frame a = some ⟨w, .cancelWake⟩) :
    (p.advance a w .cancelWake).Inv :=
  (h.wakeAll w).leave (frame_wakeAll (by simp) ha) id fun _ => frame_wakeAll_ne p w

theorem advance (h : p.Inv) (ha : p.frame a = some ⟨w, pc⟩)
    (hg : pc = .genAdd → p.generations + 1 < 2 ^ 30) : (p.advance a w pc).Inv := by
  have hok := h.frames a _ ha
  cases pc with
  | fast => exact h.fast ha
  | genLoad => exact h.genLoad ha
  | genRead => exact h.move ha ⟨hok, rfl⟩ id id id fun he => by cases he
  | genCas seen => exact h.genCas ha
  | genAdd => exact h.genAdd ha (hg rfl)
  | genPub seen => exact h.genPub ha
  | check g => exact h.check ha
  | cas g c => exact h.cas ha
  | init => exact h.init ha
  | storeDone => exact h.storeDone ha
  | wakeDone => exact h.wakeDone ha
  | wait c => exact h.wait ha
  | asleep => exact h.move ha trivial id id id fun he => by cases he
  | ret => exact h.leave ha id fun hs => hs.elim
  | cancelStore => exact h.cancelStore ha
  | cancelWake => exact h.cancelWake ha

theorem step (h : p.Inv) (hs : Step p q) : q.Inv := by
  cases hs with
  | call w hc ha => exact h.call w ha
  | advance ha ht hg => exact h.advance ha hg
  | cancel ha ht => exact h.cancel _

end Steps

theorem start (hs : p.Start) : p.Inv := by
  obtain ⟨hpid, hanc, hop, hgen, hc, hf, hgens, hcomp, hinh, hfork, ho⟩ := hs
  have hno : ∀ b f, p.frame b ≠ some f := fun b f hb => by simp [hf] at hb
  refine ⟨⟨⟨hpid, by simp [hanc], by simp [hanc]⟩, .inl hop, ⟨by omega, by omega⟩,
    fun w => .inl (ho w), fun w => .clear (hc w) (hcomp w), fun w hd => ?_⟩,
    fun a f ha => absurd ha (hno a f), fun a b f g ha => absurd ha (hno a f),
    fun a b f g ha => absurd ha (hno a f), fun w hw => ?_, fun a w ha => absurd ha (hno a _)⟩
  · rw [hfork] at hd
    cases hd
  · have := hw.2
    rw [hc] at this
    omega

/-- The child inherits words, generation and `once_pid`, but nothing that is its own. -/
theorem fork (h : p.Inv) (hf : p.Fork q) : q.Inv := by
  obtain ⟨-, hpid, hnew, hanc, hop, hgen, hc, hfr, hgens, hcomp, hinh, hfork, ho⟩ := hf
  have hno : ∀ b f, q.frame b ≠ some f := fun b f hb => by simp [hfr] at hb
  have hpos : ∀ r ∈ p.pid :: p.ancestors, 0 < r := fun r hr => by
    rcases List.mem_cons.mp hr with rfl | hr
    · exact h.memory.pid.1
    · exact h.memory.pid.2.2 r hr
  have hopid : q.oncePid ≠ q.pid := by
    intro he
    rw [hop] at he
    rcases h.memory.oncePid with hz | ⟨r, hr, hr' | hr'⟩
    · omega
    · have : r = q.pid := by omega
      exact hnew (this ▸ hr)
    · have := hpos r hr
      omega
  have howner : ∀ w, q.owner w ≠ q.pid := fun w he => by
    rw [ho] at he
    rcases h.memory.owner w with hz | hm
    · omega
    · exact hnew (he ▸ hm)
  have hzero : ∀ w, q.completed w = 0 := fun w => by rw [hcomp]
  refine ⟨⟨⟨hpid, hanc ▸ hnew, hanc ▸ hpos⟩, ?_, by rw [hgen, hgens]; exact h.memory.generation,
    fun w => ?_, fun w => ?_, fun w hd => ?_⟩,
    fun a f ha => absurd ha (hno a f), fun a b f g ha => absurd ha (hno a f),
    fun a b f g ha => absurd ha (hno a f), fun w hw => absurd hw.1 hopid,
    fun a w ha => absurd ha (hno a _)⟩
  · rw [hop, hanc]
    exact h.memory.oncePid.imp_right fun ⟨r, hr, he⟩ => ⟨r, List.mem_cons_of_mem _ hr, he⟩
  · rw [ho, hanc]
    exact (h.memory.owner w).imp_right (List.mem_cons_of_mem _)
  · have hlt : q.oncePid = q.pid → q.control w < q.onceGeneration := fun he => absurd he hopid
    cases h.memory.words w with
    | clear h₁ _ => exact .clear (by rw [hc, h₁]) (hzero w)
    | done h₁ h₂ _ =>
      refine .done (by rw [hc, h₁]) ?_ (by rw [hzero]; exact Nat.zero_le _)
      rw [hinh]
      dsimp only
      omega
    | foreign h₁ h₂ _ _ _ =>
      exact .foreign (by rwa [hc]) (by rwa [hc, hgen]) hlt (howner w) (hzero w)
    | own h₁ _ _ =>
      have hg := h.memory.generation
      have hle : q.control w ≤ q.onceGeneration + 1 := by rw [hc, hgen, h₁.2]
      refine .foreign ?_ hle hlt (howner w) (hzero w)
      rw [hc, h₁.2, onceState, ONCE_INPROGRESS]
      omega
  · rw [hfork] at hd
    refine ⟨?_, hzero w⟩
    rw [hc]
    have hd := of_decide_eq_true hd
    have hg := h.memory.generation
    cases h.memory.words w with
    | clear h₁ _ => rw [h₁] at hd; cases hd
    | done h₁ _ _ => exact h₁
    | foreign h₁ _ _ _ _ => rw [h₁] at hd; cases hd
    | own h₁ _ _ =>
      rw [h₁.2] at hd
      simp only [onceState, ONCE_DONE] at hd
      omega

end Inv

/-! ### What `pthread_once` promises -/

/-- What holds of a process that uses `pthread_once`. -/
structure Safe [DecidableEq T] [DecidableEq W] (p : OnceProcess T W) : Prop where
  /-- One call at most is in the initializer of a word, or has still to store how it ended. -/
  single : ∀ a b f g, p.frame a = some f → p.frame b = some g → f.word = g.word →
    f.pc.Holds → g.pc.Holds → a = b
  completed : ∀ w, p.completed w ≤ 1 ∧ (p.doneAtFork w = true → p.completed w = 0)
  returned : ∀ a w, p.frame a = some ⟨w, .ret⟩ → 0 < p.completed w + p.inherited w
  /-- A word that is waited on was put in progress by this process. -/
  waits : ∀ a w, (p.frame a = some ⟨w, .asleep⟩ ∨ ∃ c, p.frame a = some ⟨w, .wait c⟩) →
    p.owner w = p.pid
  /-- A call that finds a word in progress that was put so by another process takes it over. -/
  inherited : ∀ a w g, p.frame a = some ⟨w, .check g⟩ →
    onceState (p.control w) = ONCE_INPROGRESS → p.owner w ≠ p.pid →
      p.advance a w (.check g) = p.setFrame a (some ⟨w, .cas g (p.control w)⟩) ∧
      ∃ q, (p.advance a w (.check g)).advance a w (.cas g (p.control w)) = q ∧
        q.frame a = some ⟨w, .init⟩ ∧ q.owner w = p.pid ∧
        q.control w = p.onceGeneration ||| ONCE_INPROGRESS
  /-- Whoever sleeps has an initializer of the word to wait for, or a wake-up. -/
  asleep : ∀ a w, p.frame a = some ⟨w, .asleep⟩ →
    ∃ b f, p.frame b = some f ∧ f.word = w ∧
      (f.pc.Holds ∨ f.pc = .wakeDone ∨ f.pc = .cancelWake)

theorem Inv.completed (h : p.Inv) (w : W) : p.completed w ≤ 1 := by
  cases h.memory.words w with
  | clear _ hn => omega
  | done _ _ hn => exact hn
  | foreign _ _ _ _ hn => omega
  | own _ _ hn => exact hn

theorem Inv.safe [DecidableEq T] [DecidableEq W] (h : p.Inv) : p.Safe where
  single := h.single
  completed w := ⟨h.completed w, fun hd => (h.memory.forked w hd).2⟩
  returned a w ha := h.frames a _ ha
  waits a w hw := by
    rcases hw with ha | ⟨c, ha⟩
    · exact (h.frames a _ ha).2
    · exact (h.frames a _ ha).2.1
  inherited a w g ha hs ho := by
    obtain ⟨hp, hg⟩ : p.oncePid = p.pid ∧ g = p.onceGeneration := h.frames a _ ha
    have hlt : p.control w < p.onceGeneration := by
      cases h.memory.words w with
      | clear hc _ => rw [hc] at hs; cases hs
      | done hc _ _ => rw [hc] at hs; cases hs
      | foreign _ _ hlt _ _ => exact hlt hp
      | own _ ho' _ => exact absurd ho' ho
    have hne : onceGen (p.control w) ≠ g := by
      have := h.memory.generation
      rw [onceGen, hg]
      omega
    have hcheck : p.advance a w (.check g) = p.setFrame a (some ⟨w, .cas g (p.control w)⟩) := by
      unfold OnceProcess.advance
      dsimp only
      rw [if_neg (by rw [hs]; decide), if_pos (.inr hne)]
    refine ⟨hcheck, _, rfl, ?_⟩
    rw [hcheck]
    have hc : (p.setFrame a (some ⟨w, .cas g (p.control w)⟩)).control w = p.control w := rfl
    unfold OnceProcess.advance
    dsimp only
    rw [if_pos hc]
    refine ⟨frame_setFrame_self .., Function.update_self .., ?_⟩
    rw [← hg]
    exact Function.update_self ..
  asleep a w ha := by
    obtain ⟨b, f, hb, hw, hf⟩ := h.sleepers a w ha
    refine ⟨b, f, hb, hw, ?_⟩
    cases hpc : f.pc with
    | init => exact .inl trivial
    | storeDone => exact .inl trivial
    | cancelStore => exact .inl trivial
    | wakeDone => exact .inr (.inl rfl)
    | cancelWake => exact .inr (.inr rfl)
    | _ => rw [hpc] at hf; exact hf.elim

end OnceProcess

/-- Every process of every run with any threads, interleavings, cancellations and forks. -/
theorem once_safe [DecidableEq T] [DecidableEq W] {ps : List (OnceProcess T W)}
    (h : (onceProcesses T W).Runs ps) : ∀ p ∈ ps, p.Safe := fun p hp =>
  (Forking.Runs.invariant (fun _ => OnceProcess.Inv.start) (fun _ _ => OnceProcess.Inv.step)
    (fun _ _ => OnceProcess.Inv.fork) h p hp).safe

/-- A process before the first call of `pthread_once`. -/
def onceUnused : OnceProcess Bool Unit where
  pid := 5
  ancestors := []
  oncePid := 0
  onceGeneration := 0
  control _ := 0
  generations := 0
  completed _ := 0
  inherited _ := 0
  doneAtFork _ := false
  owner _ := 0
  frame _ := none

def onceCall (p : OnceProcess Bool Unit) (pc : OncePC) : OnceProcess Bool Unit :=
  p.advance (false, 0) () pc

/-- A thread is in the first initializer. -/
def onceRunning : OnceProcess Bool Unit :=
  onceCall (onceCall (onceCall (onceCall (onceCall (onceCall (onceCall
    (onceUnused.setFrame (false, 0) (some ⟨(), .fast⟩)) .fast) .genLoad) (.genCas 0)) .genAdd)
    (.genPub 4)) (.check 4)) (.cas 4 0)

/-- What another thread forks off meanwhile. -/
def onceChild : OnceProcess Bool Unit :=
  { onceRunning with pid := 6, ancestors := [5], frame := fun _ => none }

theorem onceCall_runs {p : OnceProcess Bool Unit} (pc : OncePC)
    (h : (onceProcesses Bool Unit).Runs [p]) (ha : p.frame (false, 0) = some ⟨(), pc⟩) (ht : p.frame (false, 1) = none)
    (hg : p.generations ≤ 1) : (onceProcesses Bool Unit).Runs [onceCall p pc] := by
  have hstep : (onceProcesses Bool Unit).step p (onceCall p pc) :=
    OnceProcess.Step.advance ha ht fun _ => by omega
  exact h.next (.run (l := []) (r := []) hstep)

theorem onceRunning_runs : (onceProcesses Bool Unit).Runs [onceRunning, onceChild] := by
  have r : (onceProcesses Bool Unit).Runs [onceUnused] :=
    .start ⟨_, ⟨by decide, rfl, rfl, rfl, fun _ => rfl, fun _ => rfl, rfl, fun _ => rfl,
      fun _ => rfl, fun _ => rfl, fun _ => rfl⟩, rfl⟩
  have hcall : (onceProcesses Bool Unit).step onceUnused _ :=
    OnceProcess.Step.call (a := (false, 0)) () trivial rfl
  have r := r.next (.run (l := []) (r := []) hcall)
  have r := onceCall_runs .fast r rfl rfl (by decide)
  have r := onceCall_runs .genLoad r rfl rfl (by decide)
  have r := onceCall_runs (.genCas 0) r rfl rfl (by decide)
  have r := onceCall_runs .genAdd r rfl rfl (by decide)
  have r := onceCall_runs (.genPub 4) r rfl rfl (by decide)
  have r := onceCall_runs (.check 4) r rfl rfl (by decide)
  have r := onceCall_runs (.cas 4 0) r rfl rfl (by decide)
  have hfork : (onceProcesses Bool Unit).fork onceRunning onceChild :=
    ⟨⟨true, fun _ => rfl⟩, by decide, by decide, rfl, rfl, rfl, rfl, rfl, rfl, rfl, rfl,
      funext fun w => by cases w; rfl, rfl⟩
  exact r.next (.fork (l := []) (r := []) hfork)

theorem once_safe_running : onceRunning.Safe ∧ onceChild.Safe :=
  ⟨once_safe onceRunning_runs _ (by simp), once_safe onceRunning_runs _ (by simp)⟩

end MuslBsd.Pthread
