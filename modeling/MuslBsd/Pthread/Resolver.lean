import Mathlib.Algebra.Order.Ring.Nat
import MuslBsd.Support.Transition

/-! `resolve_native` and the wrappers that forward to the native functions: threads that call
them, re-entrant calls from inside `dlsym`, and processes that fork. -/
namespace MuslBsd.Pthread
open MuslBsd.Support

def ENOSYS : ℕ := 38

/-- The pointers `p_*`. -/
inductive Native
  | mutexInit | mutexLock | mutexUnlock | mutexTrylock | mutexDestroy
  | mutexattrInit | mutexattrDestroy | mutexattrSetprotocol | mutexattrSetpshared | mutexattrSettype
  | condInit | condDestroy | condWait | condTimedwait | condSignal | condBroadcast
  | condattrInit | condattrDestroy | condattrSetclock | condattrSetpshared
  | rwlockInit | rwlockDestroy | rwlockRdlock | rwlockWrlock | rwlockUnlock | rwlockTryrdlock
  | rwlockTrywrlock | rwlockattrInit | rwlockattrDestroy | rwlockattrSetpshared
  | semInit | semDestroy | semPost | semWait | semTrywait | semTimedwait
  | attrInit | attrDestroy | attrSetdetachstate | attrSetinheritsched | attrSetschedparam
  | attrSetschedpolicy | attrSetscope | attrSetstack | attrSetguardsize | attrSetstacksize
  | create | join | detach
  deriving DecidableEq, Repr

/-- The order in which `RESOLVE` looks the pointers up. -/
def Native.all : List Native :=
  [.mutexInit, .mutexLock, .mutexUnlock, .mutexTrylock, .mutexDestroy,
   .mutexattrInit, .mutexattrDestroy, .mutexattrSetprotocol, .mutexattrSetpshared, .mutexattrSettype,
   .condInit, .condDestroy, .condWait, .condTimedwait, .condSignal, .condBroadcast,
   .condattrInit, .condattrDestroy, .condattrSetclock, .condattrSetpshared,
   .rwlockInit, .rwlockDestroy, .rwlockRdlock, .rwlockWrlock, .rwlockUnlock, .rwlockTryrdlock,
   .rwlockTrywrlock, .rwlockattrInit, .rwlockattrDestroy, .rwlockattrSetpshared,
   .semInit, .semDestroy, .semPost, .semWait, .semTrywait, .semTimedwait,
   .attrInit, .attrDestroy, .attrSetdetachstate, .attrSetinheritsched, .attrSetschedparam,
   .attrSetschedpolicy, .attrSetscope, .attrSetstack, .attrSetguardsize, .attrSetstacksize,
   .create, .join, .detach]

theorem Native.mem_all (w : Native) : w ∈ Native.all := by cases w <;> decide

/-- The wrappers that prepare a static mutex before they forward. -/
def Native.prepares : Native → Bool
  | .mutexDestroy | .mutexLock | .mutexTrylock | .mutexUnlock | .condWait | .condTimedwait => true
  | _ => false

/-- `enum resolver_state`. -/
inductive ResolverState
  | uninitialized | running | ready | failed
  deriving DecidableEq, Repr

def ResolverState.toNat : ResolverState → ℕ
  | .uninitialized => 0
  | .running => 1
  | .ready => 2
  | .failed => 3

/-- `RESOLVER_STATUS`. -/
def resolverStatus (pid : ℕ) (state : ResolverState) : ℕ := pid % 2 ^ 32 * 2 ^ 32 + state.toNat

/-- `RESOLVER_STATUS_STATE`. -/
def statusState (status : ℕ) : ℕ := status % 2 ^ 32

/-- `RESOLVER_STATUS_PID`. -/
def statusPid (status : ℕ) : ℕ := status / 2 ^ 32 % 2 ^ 32

/-- Where a call stands in `resolve_native`. In `lookup` the thread is inside `dlsym`. -/
inductive ResolvePC
  | load
  | reset (expected : ℕ)
  | claim
  | activate
  | lookup (i : ℕ) (missing : Bool)
  | store (i : ℕ) (missing : Bool) (address : ℕ)
  | deactivate (missing : Bool)
  | publish (missing : Bool)
  | done (error : ℕ)
  deriving DecidableEq, Repr

/-- A call of a wrapper: in `resolve_native`, about to call through its pointer, or in the native
function at `target`. -/
inductive Frame
  | resolving (w : Native) (pc : ResolvePC)
  | invoke (w : Native)
  | native (w : Native) (target : ℕ)
  deriving DecidableEq, Repr

/-- A process. `frame (t, i)` is the call of thread `t` at depth `i`; `fresh` are the pointers
stored since the resolution that is running or was the last one. -/
structure Process (T : Type) where
  pid : ℕ
  ancestors : List ℕ
  status : ℕ
  ptr : Native → ℕ
  active : T → Bool
  frame : T × ℕ → Option Frame
  fresh : Native → Bool

variable {T : Type}

section Steps

variable [DecidableEq T]

namespace Process

def setFrame (p : Process T) (a : T × ℕ) (f : Option Frame) : Process T :=
  { p with frame := Function.update p.frame a f }

@[simp] theorem frame_setFrame_self (p : Process T) (a : T × ℕ) (f : Option Frame) :
    (p.setFrame a f).frame a = f := Function.update_self ..

theorem frame_setFrame_of_ne (p : Process T) {a b : T × ℕ} (f : Option Frame) (h : b ≠ a) :
    (p.setFrame a f).frame b = p.frame b := Function.update_of_ne h ..

/-- The call `a` runs: its thread is not in a later call. -/
def Top (p : Process T) (a : T × ℕ) : Prop := p.frame (a.1, a.2 + 1) = none

/-- What is left to do after pointer `i` has been stored. -/
def afterStore (i : ℕ) (missing : Bool) : ResolvePC :=
  if i + 1 < Native.all.length then .lookup (i + 1) missing else .deactivate missing

/-- The next atomic step of `resolve_native` in the call `a`; `address` is what `dlsym` finds. -/
def resolve (p : Process T) (a : T × ℕ) (w : Native) (address : ℕ) : ResolvePC → Process T
  | .load =>
    let state := statusState p.status
    let next : ResolvePC :=
      if state = ResolverState.ready.toNat then .done 0
      else if state = ResolverState.failed.toNat then .done ENOSYS
      else if state = ResolverState.running.toNat then
        if p.active a.1 then .done ENOSYS
        else if statusPid p.status ≠ p.pid then .reset p.status
        else .load
      else .claim
    p.setFrame a (some (.resolving w next))
  | .reset expected =>
    { p with status := if p.status = expected then 0 else p.status }.setFrame a
      (some (.resolving w .load))
  | .claim =>
    if p.status = 0 then
      { p with status := resolverStatus p.pid .running, fresh := fun _ => false }.setFrame a
        (some (.resolving w .activate))
    else
      p.setFrame a (some (.resolving w .load))
  | .activate =>
    { p with active := Function.update p.active a.1 true }.setFrame a
      (some (.resolving w (.lookup 0 false)))
  | .lookup i missing => p.setFrame a (some (.resolving w (.store i missing address)))
  | .store i missing address =>
    { p with
      ptr := fun n => if Native.all[i]? = some n then address else p.ptr n
      fresh := fun n => if Native.all[i]? = some n then true else p.fresh n }.setFrame a
      (some (.resolving w (afterStore i (missing || address == 0))))
  | .deactivate missing =>
    { p with active := Function.update p.active a.1 false }.setFrame a
      (some (.resolving w (.publish missing)))
  | .publish missing =>
    { p with status := resolverStatus p.pid (if missing then .failed else .ready) }.setFrame a
      (some (.resolving w (.done (if missing then ENOSYS else 0))))
  | .done error => p.setFrame a (some (.resolving w (.done error)))

/-- Where a thread may call a wrapper: outside, in `dlsym`, or in a native function. -/
def Callable (p : Process T) : T × ℕ → Prop
  | (_, 0) => True
  | (t, i + 1) =>
    (∃ w j missing, p.frame (t, i) = some (.resolving w (.lookup j missing))) ∨
      ∃ w target, p.frame (t, i) = some (.native w target)

/-- Steps of one thread. -/
inductive Step : Process T → Process T → Prop
  | call {p : Process T} {a : T × ℕ} (w : Native) (hc : p.Callable a) (ha : p.frame a = none) :
    Step p (p.setFrame a (some (.resolving w .load)))
  | resolve {p : Process T} {a : T × ℕ} {w : Native} {pc : ResolvePC} (address : ℕ)
      (ha : p.frame a = some (.resolving w pc)) (ht : p.Top a) (hd : ∀ error, pc ≠ .done error) :
    Step p (p.resolve a w address pc)
  /-- The wrapper returns the error of `resolve_native`. -/
  | fail {p : Process T} {a : T × ℕ} {w : Native} {error : ℕ}
      (ha : p.frame a = some (.resolving w (.done error))) (ht : p.Top a) (he : error ≠ 0) :
    Step p (p.setFrame a none)
  /-- The wrapper returns the error of `glibc_prepare_static_mutex`. -/
  | refuse {p : Process T} {a : T × ℕ} {w : Native}
      (ha : p.frame a = some (.resolving w (.done 0))) (ht : p.Top a) (hw : w.prepares = true) :
    Step p (p.setFrame a none)
  | forward {p : Process T} {a : T × ℕ} {w : Native}
      (ha : p.frame a = some (.resolving w (.done 0))) (ht : p.Top a) :
    Step p (p.setFrame a (some (.invoke w)))
  | invoke {p : Process T} {a : T × ℕ} {w : Native} (ha : p.frame a = some (.invoke w))
      (ht : p.Top a) :
    Step p (p.setFrame a (some (.native w (p.ptr w))))
  | leave {p : Process T} {a : T × ℕ} {w : Native} {target : ℕ}
      (ha : p.frame a = some (.native w target)) (ht : p.Top a) :
    Step p (p.setFrame a none)

/-- Before the first call: nothing is resolved and nobody is in a wrapper. -/
def Start (p : Process T) : Prop :=
  p.pid < 2 ^ 32 ∧ p.ancestors = [] ∧ p.status = 0 ∧ (∀ n, p.ptr n = 0) ∧ (∀ t, p.active t = false) ∧
    ∀ a, p.frame a = none

/-- `fork` by a thread `t` that is not in `resolve_native`: the child has that thread only, the
memory of its parent, and a pid that no process of the chain has. -/
def Fork (p c : Process T) : Prop :=
  ∃ t, (∀ i w pc, p.frame (t, i) ≠ some (.resolving w pc)) ∧
    c.pid < 2 ^ 32 ∧ c.pid ∉ p.pid :: p.ancestors ∧ c.ancestors = p.pid :: p.ancestors ∧
    c.status = p.status ∧ c.ptr = p.ptr ∧ c.fresh = p.fresh ∧
    c.active = (fun u => if u = t then p.active t else false) ∧
    c.frame = fun a => if a.1 = t then p.frame a else none

end Process

/-- Processes that use the wrappers. -/
def resolvers (T : Type) [DecidableEq T] : Forking (Process T) :=
  ⟨Process.Start, Process.Step, Process.Fork⟩

end Steps

/-! ### The status word -/

section Status

variable {pid : ℕ} {state : ResolverState}

theorem state_resolverStatus (pid : ℕ) (state : ResolverState) :
    statusState (resolverStatus pid state) = state.toNat := by
  have : state.toNat < 2 ^ 32 := by cases state <;> decide
  simp only [statusState, resolverStatus]
  omega

theorem pid_resolverStatus (h : pid < 2 ^ 32) (state : ResolverState) :
    statusPid (resolverStatus pid state) = pid := by
  have : state.toNat < 2 ^ 32 := by cases state <;> decide
  simp only [statusPid, resolverStatus]
  omega

theorem resolverStatus_inj {pid' : ℕ} {state' : ResolverState} (h : pid < 2 ^ 32)
    (h' : pid' < 2 ^ 32) (he : resolverStatus pid state = resolverStatus pid' state') :
    pid = pid' ∧ state = state' := by
  refine ⟨?_, ?_⟩
  · rw [← pid_resolverStatus h state, he, pid_resolverStatus h']
  · have hs : state.toNat = state'.toNat := by
      rw [← state_resolverStatus pid state, he, state_resolverStatus]
    revert hs
    cases state <;> cases state' <;> decide

theorem resolverStatus_ne_zero (pid : ℕ) (h : state ≠ .uninitialized) : resolverStatus pid state ≠ 0 := by
  have : 0 < state.toNat := by cases state <;> first | exact absurd rfl h | decide
  simp only [resolverStatus]
  omega

end Status

/-! ### What every process looks like -/

def ResolvePC.Resolving : ResolvePC → Prop
  | .activate | .lookup .. | .store .. | .deactivate _ | .publish _ => True
  | _ => False

/-- `resolver_active` is set. -/
def ResolvePC.Active : ResolvePC → Prop
  | .lookup .. | .store .. | .deactivate _ => True
  | _ => False

/-- The call has won the compare-exchange and not yet published its result. -/
def Frame.Resolving : Frame → Prop
  | .resolving _ pc => pc.Resolving
  | _ => False

def Frame.Active : Frame → Prop
  | .resolving _ pc => pc.Active
  | _ => False

theorem Frame.Active.resolving {f : Frame} (h : f.Active) : f.Resolving := by
  cases f with
  | resolving w pc =>
    cases pc with
    | lookup i m => trivial
    | store i m x => trivial
    | deactivate m => trivial
    | _ => exact h.elim
  | _ => exact h.elim

/-- All a call from inside `dlsym` ever gets to. -/
def Frame.Reentrant : Frame → Prop
  | .resolving _ pc => pc = .load ∨ pc = .done ENOSYS
  | _ => False

namespace Process

variable {p q : Process T} {a b : T × ℕ} {f g : Frame}

/-- The status is `state`, whoever set it. -/
def Is (p : Process T) (state : ResolverState) : Prop := statusState p.status = state.toNat

/-- The first `i` pointers have been looked up; `missing` tells whether one was NULL. -/
def LookedUp (p : Process T) (i : ℕ) (missing : Bool) : Prop :=
  ∀ j < i, ∀ n, Native.all[j]? = some n → p.fresh n = true ∧ (missing = false → p.ptr n ≠ 0)

def FrameOk (p : Process T) (t : T) : Frame → Prop
  | .resolving _ pc =>
    match pc with
    | .load | .claim => True
    | .reset expected => ∃ q ∈ p.ancestors, expected = resolverStatus q .running
    | .activate => p.status = resolverStatus p.pid .running
    | .lookup i missing | .store i missing _ =>
      p.status = resolverStatus p.pid .running ∧ p.active t = true ∧ i < Native.all.length ∧
        p.LookedUp i missing
    | .deactivate missing =>
      p.status = resolverStatus p.pid .running ∧ p.active t = true ∧
        p.LookedUp Native.all.length missing
    | .publish missing =>
      p.status = resolverStatus p.pid .running ∧ p.LookedUp Native.all.length missing
    | .done error => error = 0 ∧ p.Is .ready ∨ error = ENOSYS
  | .invoke _ => p.Is .ready
  | .native w target => p.Is .ready ∧ target = p.ptr w

structure Inv (p : Process T) : Prop where
  pid : p.pid < 2 ^ 32 ∧ p.pid ∉ p.ancestors ∧ ∀ q ∈ p.ancestors, q < 2 ^ 32
  status : p.status = 0 ∨ ∃ q ∈ p.pid :: p.ancestors, ∃ state, state ≠ .uninitialized ∧
    p.status = resolverStatus q state
  nested : ∀ t i j, i ≤ j → p.frame (t, i) = none → p.frame (t, j) = none
  caller : ∀ t i f, p.frame (t, i + 1) = some f → p.Callable (t, i + 1)
  frames : ∀ a f, p.frame a = some f → p.FrameOk a.1 f
  single : ∀ a b f g, p.frame a = some f → p.frame b = some g → f.Resolving → g.Resolving → a = b
  active : ∀ t, p.active t = true → ∃ i f, p.frame (t, i) = some f ∧ f.Active
  reentrant : ∀ t i j f g, i < j → p.frame (t, i) = some f → f.Resolving →
    p.frame (t, j) = some g → g.Reentrant
  ready : p.Is .ready → ∀ n, p.fresh n = true ∧ p.ptr n ≠ 0

theorem Is.ne {state state' : ResolverState} (h : p.Is state) (hne : state ≠ state') :
    ¬p.Is state' := fun h' => by
  have : state.toNat = state'.toNat := h.symm.trans h'
  revert this
  cases state <;> cases state' <;> first | exact absurd rfl hne | decide

theorem is_of_status {pid : ℕ} {s : ResolverState} (h : p.status = resolverStatus pid s) :
    p.Is s := by
  rw [Is, h, state_resolverStatus]

theorem is_of_zero (h : p.status = 0) : p.Is .uninitialized := by
  rw [Is, h]
  rfl

/-- Whoever resolves has put the status to RUNNING under the pid of the process. -/
theorem FrameOk.running {t : T} (h : p.FrameOk t f) (hr : f.Resolving) :
    p.status = resolverStatus p.pid .running := by
  cases f with
  | resolving w pc =>
    cases pc with
    | activate => exact h
    | lookup i m => exact h.1
    | store i m x => exact h.1
    | deactivate m => exact h.1
    | publish m => exact h.1
    | _ => exact hr.elim
  | _ => exact hr.elim

/-- A call that neither resolves nor has seen READY depends on the ancestors only. -/
theorem FrameOk.idle {t : T} (h : p.FrameOk t f) (hr : ¬f.Resolving) (hn : ¬p.Is .ready)
    (hq : q.ancestors = p.ancestors) : q.FrameOk t f := by
  cases f with
  | resolving w pc =>
    cases pc with
    | load => trivial
    | claim => trivial
    | reset e =>
      change ∃ r ∈ q.ancestors, _
      rw [hq]
      exact h
    | done e => exact .inr (h.resolve_left fun hd => hn hd.2)
    | _ => exact absurd trivial hr
  | invoke w => exact absurd h hn
  | native w x => exact absurd h.1 hn

namespace Inv

/-- A call below a later one of its thread is in `dlsym` if it resolves at all. -/
theorem below (h : p.Inv) {t : T} {i j : ℕ} (hij : i < j) (hi : p.frame (t, i) = some f)
    (hr : f.Resolving) (hj : p.frame (t, j) = some g) :
    p.active t = true ∧ p.status = resolverStatus p.pid .running := by
  have hne : p.frame (t, i + 1) ≠ none := fun hn => by
    rw [h.nested t (i + 1) j hij hn] at hj
    cases hj
  obtain ⟨g', hg'⟩ := Option.ne_none_iff_exists'.mp hne
  have hok := h.frames _ _ hi
  rcases h.caller t i g' hg' with ⟨w, k, m, hw⟩ | ⟨w, x, hw⟩
  · rw [hi, Option.some.injEq] at hw
    subst hw
    exact ⟨hok.2.1, hok.1⟩
  · rw [hi, Option.some.injEq] at hw
    subst hw
    exact hr.elim

/-- While a call resolves, no other one does. -/
theorem alone (h : p.Inv) (ha : p.frame a = some f) (hf : f.Resolving) :
    ¬p.Is .ready ∧ ∀ b f', b ≠ a → p.frame b = some f' → ¬f'.Resolving :=
  ⟨(is_of_status ((h.frames a f ha).running hf)).ne (by simp),
    fun _ _ hb hp hr => hb (h.single _ _ _ _ hp ha hr hf)⟩

/-- Nobody resolves unless the status says so. -/
theorem nobody (h : p.Inv) (hs : p.status ≠ resolverStatus p.pid .running) :
    ∀ b f', p.frame b = some f' → ¬f'.Resolving :=
  fun b f' hb hr => hs ((h.frames b f' hb).running hr)

section Update

variable [DecidableEq T]

/-- One call moves from `f` to `g`; what is shared stays, or nobody else depends on it. -/
theorem update (h : p.Inv) (ha : p.frame a = some f) (ht : p.Top a)
    (hfr : q.frame = Function.update p.frame a (some g)) (hpid : q.pid = p.pid)
    (hanc : q.ancestors = p.ancestors) (hst : q.status = p.status ∨ q.status = 0 ∨
      ∃ state, state ≠ .uninitialized ∧ q.status = resolverStatus p.pid state)
    (hg : q.FrameOk a.1 g)
    (hsh : (∀ t f, p.FrameOk t f → q.FrameOk t f) ∨
      ¬p.Is .ready ∧ ∀ b f', b ≠ a → p.frame b = some f' → ¬f'.Resolving)
    (hres : g.Resolving → f.Resolving ∨ ∀ b f', p.frame b = some f' → ¬f'.Resolving)
    (hact : ∀ t, q.active t = true → t = a.1 ∧ g.Active ∨ p.active t = true ∧ (t = a.1 → ¬f.Active))
    (hre : f.Reentrant → p.active a.1 = true → p.status = resolverStatus p.pid .running → g.Reentrant)
    (hready : q.Is .ready → ∀ n, q.fresh n = true ∧ q.ptr n ≠ 0) : q.Inv := by
  obtain ⟨u, k⟩ := a
  have hself : q.frame (u, k) = some g := by rw [hfr, Function.update_self]
  have hother : ∀ b, b ≠ (u, k) → q.frame b = p.frame b := fun b hb => by
    rw [hfr, Function.update_of_ne hb]
  have habove : ∀ j, k < j → p.frame (u, j) = none := fun j hj => h.nested u (k + 1) j hj ht
  refine ⟨hpid ▸ hanc ▸ h.pid, ?_, fun t i j hij hn => ?_, fun t i f' hf' => ?_, fun b f' hb => ?_,
    fun b c f₁ f₂ hb hc h₁ h₂ => ?_, fun t htr => ?_, fun t i j f₁ f₂ hij hi h₁ hj => ?_, hready⟩
  · rw [hpid, hanc]
    rcases hst with hs | hs | ⟨state, hne, hs⟩
    · rw [hs]
      exact h.status
    · exact .inl hs
    · exact .inr ⟨p.pid, by simp, state, hne, hs⟩
  · have hi : (t, i) ≠ (u, k) := fun he => by rw [he, hself] at hn; cases hn
    rw [hother _ hi] at hn
    have hj := h.nested t i j hij hn
    rwa [hother _ fun he => by rw [he, ha] at hj; cases hj]
  · have hne : (t, i + 1) ≠ (u, k) ∨ (t, i + 1) = (u, k) := (em _).symm
    have hp : ∃ f, p.frame (t, i + 1) = some f := by
      rcases hne with hne | he
      · exact ⟨f', by rwa [hother _ hne] at hf'⟩
      · exact ⟨f, he ▸ ha⟩
    have hi : (t, i) ≠ (u, k) := fun he => by
      obtain ⟨rfl, rfl⟩ := Prod.mk.inj he
      obtain ⟨f₁, hf₁⟩ := hp
      rw [habove _ (Nat.lt_succ_self _)] at hf₁
      cases hf₁
    obtain ⟨f₁, hf₁⟩ := hp
    have hc := h.caller t i f₁ hf₁
    simpa only [Callable, hother _ hi] using hc
  · by_cases he : b = (u, k)
    · subst he
      rw [hself, Option.some.injEq] at hb
      exact hb ▸ hg
    · rw [hother _ he] at hb
      rcases hsh with hsh | ⟨hn, hnr⟩
      · exact hsh _ _ (h.frames b f' hb)
      · exact (h.frames b f' hb).idle (hnr b f' he hb) hn hanc
  · have hold : ∀ b f', q.frame b = some f' → f'.Resolving → b = (u, k) ∨
        p.frame b = some f' := fun b f' hb _ => by
      by_cases he : b = (u, k)
      · exact .inl he
      · exact .inr (by rwa [hother _ he] at hb)
    rcases hold b f₁ hb h₁ with rfl | hb' <;> rcases hold c f₂ hc h₂ with rfl | hc'
    · rfl
    · rw [hself, Option.some.injEq] at hb
      rcases hres (hb ▸ h₁) with hf | hf
      · exact h.single _ _ _ _ ha hc' hf h₂
      · exact absurd h₂ (hf _ _ hc')
    · rw [hself, Option.some.injEq] at hc
      rcases hres (hc ▸ h₂) with hf | hf
      · exact h.single _ _ _ _ hb' ha h₁ hf
      · exact absurd h₁ (hf _ _ hb')
    · exact h.single _ _ _ _ hb' hc' h₁ h₂
  · rcases hact t htr with ⟨rfl, hga⟩ | ⟨hp, hfa⟩
    · exact ⟨k, g, hself, hga⟩
    · obtain ⟨i, f', hi, hf'⟩ := h.active t hp
      refine ⟨i, f', ?_, hf'⟩
      rw [hother _ fun he => ?_, hi]
      rw [he, ha, Option.some.injEq] at hi
      exact hfa (Prod.mk.inj he).1 (hi ▸ hf')
  · have hi' : (t, i) ≠ (u, k) := fun he => by
      obtain ⟨rfl, rfl⟩ := Prod.mk.inj he
      rw [hother _ fun he => by simp only [Prod.mk.injEq, true_and] at he; omega, habove j hij] at hj
      cases hj
    rw [hother _ hi'] at hi
    by_cases he : (t, j) = (u, k)
    · obtain ⟨rfl, rfl⟩ := Prod.mk.inj he
      rw [hself, Option.some.injEq] at hj
      obtain ⟨hat, hrun⟩ := h.below hij hi h₁ ha
      exact hj ▸ hre (h.reentrant _ _ _ _ _ hij hi h₁ ha) hat hrun
    · rw [hother _ he] at hj
      exact h.reentrant _ _ _ _ _ hij hi h₁ hj

/-- One call moves on and nothing else happens. -/
theorem move (h : p.Inv) (ha : p.frame a = some f) (ht : p.Top a) (hg : p.FrameOk a.1 g)
    (hres : g.Resolving → f.Resolving) (hact : f.Active → g.Active)
    (hre : f.Reentrant → p.active a.1 = true → p.status = resolverStatus p.pid .running →
      g.Reentrant) : (p.setFrame a (some g)).Inv := by
  refine h.update ha ht rfl rfl rfl (.inl rfl) hg (.inl fun _ _ hf => hf)
    (fun hg => .inl (hres hg)) (fun t htr => ?_) hre h.ready
  by_cases hta : t = a.1 ∧ f.Active
  · exact .inl ⟨hta.1, hact hta.2⟩
  · exact .inr ⟨htr, fun he hf => hta ⟨he, hf⟩⟩

/-- A call ends. -/
theorem leave (h : p.Inv) (ha : p.frame a = some f) (ht : p.Top a) (hf : ¬f.Active) :
    (p.setFrame a none).Inv := by
  obtain ⟨u, k⟩ := a
  have hsub : ∀ b f', (p.setFrame (u, k) none).frame b = some f' → b ≠ (u, k) ∧ p.frame b = some f' :=
    fun b f' hb => by
      by_cases he : b = (u, k)
      · subst he
        rw [frame_setFrame_self] at hb
        cases hb
      · exact ⟨he, by rwa [frame_setFrame_of_ne _ _ he] at hb⟩
  refine ⟨h.pid, h.status, fun t i j hij hn => ?_, fun t i f' hf' => ?_, fun b f' hb =>
    h.frames b f' (hsub b f' hb).2, fun b c f₁ f₂ hb hc h₁ h₂ =>
    h.single _ _ _ _ (hsub b f₁ hb).2 (hsub c f₂ hc).2 h₁ h₂, fun t htr => ?_,
    fun t i j f₁ f₂ hij hi h₁ hj => h.reentrant _ _ _ _ _ hij (hsub _ _ hi).2 h₁ (hsub _ _ hj).2,
    h.ready⟩
  · by_cases he : (t, i) = (u, k)
    · obtain ⟨rfl, rfl⟩ := Prod.mk.inj he
      by_cases hji : j = i
      · rw [hji, frame_setFrame_self]
      · have hj := h.nested t (i + 1) j (by omega) ht
        rw [frame_setFrame_of_ne _ _ (by simpa using hji), hj]
    · rw [frame_setFrame_of_ne _ _ he] at hn
      have hj := h.nested t i j hij hn
      by_cases he' : (t, j) = (u, k)
      · rw [he', frame_setFrame_self]
      · rw [frame_setFrame_of_ne _ _ he', hj]
  · obtain ⟨-, hp⟩ := hsub _ _ hf'
    have he : (t, i) ≠ (u, k) := fun he => by
      obtain ⟨rfl, rfl⟩ := Prod.mk.inj he
      rw [show p.frame (t, i + 1) = none from ht] at hp
      cases hp
    have hc := h.caller t i f' hp
    simpa only [Callable, frame_setFrame_of_ne _ _ he] using hc
  · obtain ⟨i, f', hi, hf'⟩ := h.active t htr
    refine ⟨i, f', ?_, hf'⟩
    rw [frame_setFrame_of_ne _ _ fun he => ?_, hi]
    rw [he, ha, Option.some.injEq] at hi
    exact hf (hi ▸ hf')

/-- A thread calls a wrapper. -/
theorem call (h : p.Inv) (w : Native) (hc : p.Callable a) (ha : p.frame a = none) :
    (p.setFrame a (some (.resolving w .load))).Inv := by
  obtain ⟨u, k⟩ := a
  have hsub : ∀ b f', (p.setFrame (u, k) (some (.resolving w .load))).frame b = some f' →
      b = (u, k) ∧ f' = .resolving w .load ∨ b ≠ (u, k) ∧ p.frame b = some f' := fun b f' hb => by
    by_cases he : b = (u, k)
    · subst he
      rw [frame_setFrame_self, Option.some.injEq] at hb
      exact .inl ⟨rfl, hb.symm⟩
    · exact .inr ⟨he, by rwa [frame_setFrame_of_ne _ _ he] at hb⟩
  have hkeep : ∀ b f', p.frame b = some f' →
      (p.setFrame (u, k) (some (.resolving w .load))).frame b = some f' := fun b f' hb => by
    rw [frame_setFrame_of_ne _ _ fun he => ?_, hb]
    rw [he, ha] at hb
    cases hb
  have hold : ∀ b f', (p.setFrame (u, k) (some (.resolving w .load))).frame b = some f' →
      f'.Resolving → p.frame b = some f' := fun b f' hb hr => by
    rcases hsub b f' hb with ⟨-, rfl⟩ | ⟨-, hp⟩
    · exact hr.elim
    · exact hp
  refine ⟨h.pid, h.status, fun t i j hij hn => ?_, fun t i f' hf' => ?_, fun b f' hb => ?_,
    fun b c f₁ f₂ hb hc h₁ h₂ => h.single _ _ _ _ (hold b f₁ hb h₁) (hold c f₂ hc h₂) h₁ h₂,
    fun t htr => ?_, fun t i j f₁ f₂ hij hi h₁ hj => ?_, h.ready⟩
  · have hi : (t, i) ≠ (u, k) := fun he => by
      rw [he, frame_setFrame_self] at hn
      cases hn
    rw [frame_setFrame_of_ne _ _ hi] at hn
    have hj : (t, j) ≠ (u, k) := fun he => by
      obtain ⟨rfl, rfl⟩ := Prod.mk.inj he
      obtain ⟨m, rfl⟩ : ∃ m, j = m + 1 := ⟨j - 1, by
        have : i ≠ j := fun he => hi (by rw [he])
        omega⟩
      rcases hc with ⟨w', l, b, hw⟩ | ⟨w', x, hw⟩ <;>
        rw [h.nested t i m (by have : i ≠ m + 1 := fun he => hi (by rw [he]); omega) hn] at hw <;>
        cases hw
    rw [frame_setFrame_of_ne _ _ hj]
    exact h.nested t i j hij hn
  · have hc' : p.Callable (t, i + 1) := by
      rcases hsub _ _ hf' with ⟨he, -⟩ | ⟨-, hp⟩
      · exact he ▸ hc
      · exact h.caller t i f' hp
    rcases hc' with ⟨w', l, b, hw⟩ | ⟨w', x, hw⟩
    · exact .inl ⟨w', l, b, hkeep _ _ hw⟩
    · exact .inr ⟨w', x, hkeep _ _ hw⟩
  · rcases hsub b f' hb with ⟨-, rfl⟩ | ⟨-, hp⟩
    · trivial
    · exact h.frames b f' hp
  · obtain ⟨i, f', hi, hf'⟩ := h.active t htr
    exact ⟨i, f', hkeep _ _ hi, hf'⟩
  · rcases hsub _ _ hj with ⟨-, rfl⟩ | ⟨-, hp⟩
    · exact .inl rfl
    · exact h.reentrant _ _ _ _ _ hij (hold _ _ hi h₁) h₁ hp

/-- Where `resolve_native` goes after it has loaded the status. -/
theorem load (h : p.Inv) {w : Native} (ha : p.frame a = some (.resolving w .load)) (ht : p.Top a)
    (x : ℕ) : (p.resolve a w x .load).Inv := by
  have hrun : p.status = resolverStatus p.pid .running → p.Is .running := is_of_status
  have hmove : ∀ pc, p.FrameOk a.1 (.resolving w pc) → ¬pc.Resolving →
      (p.active a.1 = true → p.Is .running → pc = .load ∨ pc = .done ENOSYS) →
      (p.setFrame a (some (.resolving w pc))).Inv := fun pc hok hnr hre =>
    h.move ha ht hok (fun hr => absurd hr hnr) (fun hf => hf.elim) fun _ hact hs => hre hact (hrun hs)
  unfold resolve
  dsimp only
  split
  · rename_i hs
    exact hmove _ (.inl ⟨rfl, hs⟩) id fun _ hr => absurd hs (hr.ne (by simp))
  split
  · exact hmove _ (.inr rfl) id fun _ _ => .inr rfl
  split
  · rename_i hs
    split
    · exact hmove _ (.inr rfl) id fun _ _ => .inr rfl
    rename_i hna
    split
    · rename_i hpid
      refine hmove _ ?_ id fun hact _ => absurd hact hna
      rcases h.status with hz | ⟨q, hq, state, hne, hst⟩
      · exact absurd hs ((is_of_zero hz).ne (by simp))
      · obtain rfl : state = .running := by
          by_contra hne'
          exact (is_of_status hst).ne hne' hs
        refine ⟨q, ?_, hst⟩
        rcases List.mem_cons.mp hq with rfl | hq
        · rw [hst, pid_resolverStatus h.pid.1] at hpid
          exact absurd rfl hpid
        · exact hq
    · exact hmove _ trivial id fun _ _ => .inl rfl
  · rename_i hs
    exact hmove _ trivial id fun _ hr => absurd hr hs

theorem reset (h : p.Inv) {w : Native} {e : ℕ} (ha : p.frame a = some (.resolving w (.reset e)))
    (ht : p.Top a) (x : ℕ) : (p.resolve a w x (.reset e)).Inv := by
  unfold resolve
  dsimp only
  split
  · rename_i he
    obtain ⟨q, hq, heq⟩ := h.frames a _ ha
    have hst : p.status = resolverStatus q .running := he.trans heq
    have hne : p.status ≠ resolverStatus p.pid .running := fun hs => by
      obtain ⟨rfl, -⟩ := resolverStatus_inj h.pid.1 (h.pid.2.2 q hq) (hs.symm.trans hst)
      exact h.pid.2.1 hq
    have hnr := h.nobody hne
    exact h.update ha ht rfl rfl rfl (.inr (.inl rfl)) trivial
      (.inr ⟨(is_of_status hst).ne (by simp), fun b f' _ => hnr b f'⟩) (fun hr => hr.elim)
      (fun _ hact => .inr ⟨hact, fun _ => id⟩) (fun _ _ _ => .inl rfl)
      fun hr => absurd hr ((is_of_zero rfl).ne (by simp))
  · exact h.move ha ht trivial (fun hr => hr.elim) (fun hf => hf.elim) fun _ _ _ => .inl rfl

theorem claim (h : p.Inv) {w : Native} (ha : p.frame a = some (.resolving w .claim)) (ht : p.Top a)
    (x : ℕ) : (p.resolve a w x .claim).Inv := by
  unfold resolve
  dsimp only
  split
  · rename_i hz
    have hnr := h.nobody (hz ▸ (resolverStatus_ne_zero p.pid (by simp)).symm)
    refine h.update ha ht rfl rfl rfl (.inr (.inr ⟨.running, by simp, rfl⟩)) rfl
      (.inr ⟨(is_of_zero hz).ne (by simp), fun b f' _ => hnr b f'⟩) (fun _ => .inr hnr)
      (fun _ hact => .inr ⟨hact, fun _ => id⟩) (fun hre => ?_)
      fun hr => absurd hr ((is_of_status rfl).ne (by simp))
    rcases hre with hre | hre <;> cases hre
  · exact h.move ha ht trivial (fun hr => hr.elim) (fun hf => hf.elim) fun _ _ _ => .inl rfl

theorem activate (h : p.Inv) {w : Native} (ha : p.frame a = some (.resolving w .activate))
    (ht : p.Top a) (x : ℕ) : (p.resolve a w x .activate).Inv := by
  refine h.update ha ht rfl rfl rfl (.inl rfl)
    ⟨h.frames a _ ha, Function.update_self .., by decide, fun j hj => by omega⟩
    (.inr (h.alone ha trivial)) (fun _ => .inl trivial) (fun t hact => ?_) (fun hre => ?_) h.ready
  · by_cases hta : t = a.1
    · exact .inl ⟨hta, trivial⟩
    · exact .inr ⟨by simpa [resolve, setFrame, Function.update_of_ne hta] using hact,
        fun he => absurd he hta⟩
  · rcases hre with hre | hre <;> cases hre

theorem getElem?_all_lt {i : ℕ} {n : Native} (h : Native.all[i]? = some n) : i < Native.all.length :=
  (List.getElem?_eq_some_iff.mp h).1

theorem store (h : p.Inv) {w : Native} {i : ℕ} {m : Bool} {y : ℕ}
    (ha : p.frame a = some (.resolving w (.store i m y))) (ht : p.Top a) (x : ℕ) :
    (p.resolve a w x (.store i m y)).Inv := by
  obtain ⟨hs, hact, hi, hl⟩ := h.frames a _ ha
  have hlook : (p.resolve a w x (.store i m y)).LookedUp (i + 1) (m || y == 0) := fun j hj n hn => by
    simp only [resolve, setFrame]
    by_cases hni : Native.all[i]? = some n
    · rw [if_pos hni, if_pos hni]
      exact ⟨rfl, fun hm => by simpa using (Bool.or_eq_false_iff.mp hm).2⟩
    · rw [if_neg hni, if_neg hni]
      have hji : j ≠ i := fun he => hni (he ▸ hn)
      obtain ⟨hf, hp⟩ := hl j (by omega) n hn
      exact ⟨hf, fun hm => hp (Bool.or_eq_false_iff.mp hm).1⟩
  have hres : Frame.Active (.resolving w (afterStore i (m || y == 0))) := by
    unfold afterStore
    split <;> trivial
  refine h.update ha ht rfl rfl rfl (.inl rfl) ?_ (.inr (h.alone ha trivial)) (fun _ => .inl trivial)
    (fun t htr => ?_) (fun hre => ?_) fun hr => absurd hr (h.alone ha trivial).1
  · unfold afterStore
    split
    · exact ⟨hs, hact, ‹_›, hlook⟩
    · have : Native.all.length = i + 1 := by omega
      exact ⟨hs, hact, this ▸ hlook⟩
  · by_cases hta : t = a.1
    · exact .inl ⟨hta, hres⟩
    · exact .inr ⟨htr, fun he => absurd he hta⟩
  · rcases hre with hre | hre <;> cases hre

theorem deactivate (h : p.Inv) {w : Native} {m : Bool}
    (ha : p.frame a = some (.resolving w (.deactivate m))) (ht : p.Top a) (x : ℕ) :
    (p.resolve a w x (.deactivate m)).Inv := by
  obtain ⟨hs, -, hl⟩ := h.frames a _ ha
  refine h.update ha ht rfl rfl rfl (.inl rfl) ⟨hs, hl⟩ (.inr (h.alone ha trivial))
    (fun _ => .inl trivial) (fun t hact => ?_) (fun hre => ?_) h.ready
  · by_cases hta : t = a.1
    · subst hta
      simp [resolve, setFrame] at hact
    · exact .inr ⟨by simpa [resolve, setFrame, Function.update_of_ne hta] using hact,
        fun he => absurd he hta⟩
  · rcases hre with hre | hre <;> cases hre

theorem publish (h : p.Inv) {w : Native} {m : Bool}
    (ha : p.frame a = some (.resolving w (.publish m))) (ht : p.Top a) (x : ℕ) :
    (p.resolve a w x (.publish m)).Inv := by
  obtain ⟨hs, hl⟩ := h.frames a _ ha
  refine h.update ha ht rfl rfl rfl (.inr (.inr ⟨_, by split <;> simp, rfl⟩)) ?_
    (.inr (h.alone ha trivial)) (fun hr => hr.elim) (fun _ hact => .inr ⟨hact, fun _ => id⟩)
    (fun hre => ?_) fun hr n => ?_
  · cases m with
    | true => exact .inr rfl
    | false => exact .inl ⟨rfl, is_of_status rfl⟩
  · rcases hre with hre | hre <;> cases hre
  · cases m with
    | true => exact absurd hr ((is_of_status (s := .failed) rfl).ne (by simp))
    | false =>
      obtain ⟨j, hj⟩ := List.mem_iff_getElem?.mp n.mem_all
      obtain ⟨hf, hp⟩ := hl j (getElem?_all_lt hj) n hj
      exact ⟨hf, hp rfl⟩

theorem step (h : p.Inv) (hs : Step p q) : q.Inv := by
  cases hs with
  | call w hc ha => exact h.call w hc ha
  | @resolve a w pc x ha ht hd =>
    cases pc with
    | load => exact h.load ha ht x
    | reset e => exact h.reset ha ht x
    | claim => exact h.claim ha ht x
    | activate => exact h.activate ha ht x
    | lookup i m =>
      have hok := h.frames a _ ha
      refine h.move ha ht hok (fun _ => trivial) (fun _ => trivial) fun hre => ?_
      rcases hre with hre | hre <;> cases hre
    | store i m y => exact h.store ha ht x
    | deactivate m => exact h.deactivate ha ht x
    | publish m => exact h.publish ha ht x
    | done e => exact absurd rfl (hd e)
  | fail ha ht he => exact h.leave ha ht id
  | refuse ha ht hw => exact h.leave ha ht id
  | @forward a w ha ht =>
    have hok := h.frames a _ ha
    have hr : p.Is .ready := by
      rcases hok with ⟨-, hr⟩ | he
      · exact hr
      · exact absurd he (by decide)
    exact h.move ha ht hr (fun hr => hr.elim) (fun hf => hf.elim)
      fun _ _ hs => absurd hr ((is_of_status hs).ne (by simp))
  | @invoke a w ha ht =>
    refine h.move ha ht ⟨h.frames a _ ha, rfl⟩ (fun hr => hr.elim) (fun hf => hf.elim) fun hre => hre.elim
  | leave ha ht => exact h.leave ha ht id

end Update

theorem start (hs : p.Start) : p.Inv where
  pid := ⟨hs.1, by simp [hs.2.1], by simp [hs.2.1]⟩
  status := .inl hs.2.2.1
  nested _ _ _ _ _ := hs.2.2.2.2.2 _
  caller t i f hf := by simp [hs.2.2.2.2.2] at hf
  frames a f hf := by simp [hs.2.2.2.2.2] at hf
  single a b f g hf := by simp [hs.2.2.2.2.2] at hf
  active t ht := by simp [hs.2.2.2.2.1] at ht
  reentrant t i j f g _ hf := by simp [hs.2.2.2.2.2] at hf
  ready hr := absurd hr ((is_of_zero hs.2.2.1).ne (by simp))

theorem fork [DecidableEq T] (h : p.Inv) (hf : Fork p q) : q.Inv := by
  obtain ⟨t, hnr, hpid, hnew, hanc, hst, hptr, hfr, hact, hframe⟩ := hf
  have hsub : ∀ b f, q.frame b = some f → b.1 = t ∧ p.frame b = some f := fun b f hb => by
    rw [hframe] at hb
    dsimp only at hb
    split at hb
    · exact ⟨‹_›, hb⟩
    · cases hb
  have hno : ∀ b w pc, q.frame b ≠ some (.resolving w pc) := fun b w pc hb => by
    obtain ⟨rfl, hb⟩ := hsub b _ hb
    exact hnr b.2 w pc hb
  have hnone : ∀ b f, q.frame b = some f → ¬f.Resolving := fun b f hb hr => by
    cases f with
    | resolving w pc => exact hno b w pc hb
    | _ => exact hr.elim
  refine ⟨⟨hpid, hanc ▸ hnew, fun r hr => ?_⟩, ?_, fun u i j hij hn => ?_, fun u i f hf => ?_,
    fun b f hb => ?_, fun b c f g hb hc hf => absurd hf (hnone b f hb), fun u hu => ?_,
    fun u i j f g hij hf hr => absurd hr (hnone _ f hf), fun hr => ?_⟩
  · rw [hanc] at hr
    rcases List.mem_cons.mp hr with rfl | hr
    · exact h.pid.1
    · exact h.pid.2.2 r hr
  · rw [hst, hanc]
    exact h.status.imp_right fun ⟨r, hr, hs⟩ => ⟨r, List.mem_cons_of_mem _ hr, hs⟩
  · rw [hframe] at hn ⊢
    dsimp only at hn ⊢
    split
    · rw [if_pos ‹_›] at hn
      exact h.nested u i j hij hn
    · rfl
  · obtain ⟨rfl, hp⟩ := hsub _ f hf
    rcases h.caller u i f hp with ⟨w, j, m, hw⟩ | ⟨w, x, hw⟩
    · exact absurd hw (hnr i w _)
    · exact .inr ⟨w, x, by rw [hframe]; exact (if_pos rfl).trans hw⟩
  · obtain ⟨rfl, hp⟩ := hsub b f hb
    have hok := h.frames b f hp
    cases f with
    | resolving w pc => exact absurd hb (hno b w pc)
    | invoke w => simpa only [FrameOk, Is, hst] using hok
    | native w x => simpa only [FrameOk, Is, hst, hptr] using hok
  · rw [hact] at hu
    dsimp only at hu
    split at hu
    · obtain ⟨i, f, hi, hf⟩ := h.active t hu
      cases f with
      | resolving w pc => exact absurd hi (hnr i w pc)
      | _ => exact hf.elim
    · cases hu
  · rw [hptr, hfr]
    exact h.ready (by simpa only [Is, hst] using hr)

end Inv

/-! ### What the wrappers rely on -/

/-- What a call finds when it loads a status under which it does not wait. -/
theorem load_next [DecidableEq T] (w : Native) (x : ℕ) :
    (p.Is .failed → (p.resolve a w x .load).frame a = some (.resolving w (.done ENOSYS))) ∧
    (p.Is .running → p.active a.1 = true →
      (p.resolve a w x .load).frame a = some (.resolving w (.done ENOSYS))) ∧
    (p.Is .running → p.active a.1 = false → statusPid p.status ≠ p.pid →
      p.resolve a w x .load = p.setFrame a (some (.resolving w (.reset p.status)))) ∧
    (p.status = 0 → p.resolve a w x .load = p.setFrame a (some (.resolving w .claim))) := by
  refine ⟨fun h => ?_, fun h hact => ?_, fun h hact hpid => ?_, fun h => ?_⟩
  · have h : statusState p.status = 3 := h
    simp [resolve, h, ResolverState.toNat]
  · have h : statusState p.status = 1 := h
    simp [resolve, h, hact, ResolverState.toNat]
  · have h : statusState p.status = 1 := h
    simp [resolve, h, hact, hpid, ResolverState.toNat]
  · simp [resolve, h, statusState, ResolverState.toNat]

/-- Four steps of `resolve_native` on a status that an ancestor left at RUNNING. -/
def takeOver [DecidableEq T] (p : Process T) (a : T × ℕ) (w : Native) : Process T :=
  (((p.resolve a w 0 .load).resolve a w 0 (.reset p.status)).resolve a w 0 .load).resolve a w 0 .claim

theorem takeOver_eq [DecidableEq T] (w : Native) (h : p.Is .running) (hact : p.active a.1 = false)
    (hpid : statusPid p.status ≠ p.pid) :
    p.takeOver a w = { p with
      status := resolverStatus p.pid .running
      fresh := fun _ => false
      frame := Function.update p.frame a (some (.resolving w .activate)) } := by
  unfold takeOver
  rw [(load_next w 0).2.2.1 h hact hpid]
  have hreset : (p.setFrame a (some (.resolving w (.reset p.status)))).resolve a w 0
      (.reset p.status) = { p with status := 0 }.setFrame a (some (.resolving w .load)) := by
    simp [resolve, setFrame]
  rw [hreset, (load_next w 0).2.2.2 rfl]
  simp [resolve, setFrame]

theorem takeOver_reachable [DecidableEq T] (w : Native) (ha : p.frame a = some (.resolving w .load))
    (ht : p.Top a) (h : p.Is .running) (hact : p.active a.1 = false)
    (hpid : statusPid p.status ≠ p.pid) : Reachable (· = p) Step (p.takeOver a w) := by
  have htop : ∀ (s : ℕ) (f : Option Frame), ({ p with status := s }.setFrame a f).Top a := fun s f => by
    rw [Top, frame_setFrame_of_ne _ _ fun he => by simpa using congrArg Prod.snd he]
    exact ht
  have hload := (load_next (a := a) w 0).2.2.1 h hact hpid
  have hreset : (p.setFrame a (some (.resolving w (.reset p.status)))).resolve a w 0
      (.reset p.status) = { p with status := 0 }.setFrame a (some (.resolving w .load)) := by
    simp [resolve, setFrame]
  have hclaim := (load_next (p := { p with status := 0 }.setFrame a (some (.resolving w .load)))
    (a := a) w 0).2.2.2 rfl
  have r : Reachable (· = p) Step p := .start rfl
  have r := r.next (.resolve 0 ha ht (by simp))
  rw [hload] at r
  have r := r.next (.resolve 0 (frame_setFrame_self ..) (htop p.status _) (by simp))
  rw [hreset] at r
  have r := r.next (.resolve 0 (frame_setFrame_self ..) (htop 0 _) (by simp))
  have hframe : (({ p with status := 0 }.setFrame a (some (.resolving w .load))).resolve a w 0
      .load).frame a = some (.resolving w .claim) := by
    rw [hclaim]
    exact frame_setFrame_self ..
  have htop' : (({ p with status := 0 }.setFrame a (some (.resolving w .load))).resolve a w 0
      .load).Top a := by
    rw [hclaim, Top, frame_setFrame_of_ne _ _ fun he => by simpa using congrArg Prod.snd he]
    exact htop 0 _
  have r := r.next (.resolve 0 hframe htop' (by simp))
  rwa [takeOver, hload, hreset]

/-- A call that has yet to load the status is not in `dlsym`. -/
theorem Inv.top_of_load (h : p.Inv) {w : Native} (ha : p.frame a = some (.resolving w .load)) :
    p.Top a := by
  by_contra hn
  obtain ⟨f, hf⟩ := Option.ne_none_iff_exists'.mp hn
  rcases h.caller a.1 a.2 f hf with ⟨v, j, m, hw⟩ | ⟨v, x, hw⟩ <;>
    rw [show p.frame (a.1, a.2) = _ from ha] at hw <;> cases hw

theorem Inv.failed_step [DecidableEq T] (h : p.Inv) (hf : p.Is .failed) (hs : Step p q) :
    q.status = p.status := by
  cases hs with
  | @resolve a w pc x ha ht hd =>
    have hok := h.frames a _ ha
    have hnr : p.status ≠ resolverStatus p.pid .running := fun hs =>
      (is_of_status hs).ne (by simp) hf
    cases pc with
    | reset e =>
      obtain ⟨r, -, rfl⟩ := hok
      have hne : p.status ≠ resolverStatus r .running := fun hs => (is_of_status hs).ne (by simp) hf
      simp [resolve, setFrame, hne]
    | claim =>
      have hne : p.status ≠ 0 := fun hz => (is_of_zero hz).ne (by simp) hf
      simp [resolve, setFrame, hne]
    | publish m => exact absurd hok.1 hnr
    | _ => rfl
  | _ => rfl

/-- What holds of a process that uses the wrappers. -/
structure Safe [DecidableEq T] (p : Process T) : Prop where
  /-- READY is only there once every pointer has been stored and none is NULL. -/
  ready : p.Is .ready → ∀ n, p.fresh n = true ∧ p.ptr n ≠ 0
  /-- A wrapper that is about to call through its pointer, or has, found READY before. -/
  published : ∀ a w, (p.frame a = some (.invoke w) → p.Is .ready ∧ p.ptr w ≠ 0) ∧
    ∀ target, p.frame a = some (.native w target) → p.Is .ready ∧ target = p.ptr w ∧ target ≠ 0
  single : ∀ a b f g, p.frame a = some f → p.frame b = some g → f.Resolving → g.Resolving → a = b
  /-- FAILED stays, every later look at the status ends in ENOSYS, and so did every earlier one. -/
  failed : p.Is .failed → (∀ q, Step p q ∨ Fork p q → q.Is .failed) ∧
    (∀ a w x, p.frame a = some (.resolving w .load) →
      (p.resolve a w x .load).frame a = some (.resolving w (.done ENOSYS))) ∧
    (∀ a w error, p.frame a = some (.resolving w (.done error)) → error = ENOSYS) ∧
    ∀ a w target, p.frame a ≠ some (.invoke w) ∧ p.frame a ≠ some (.native w target)
  /-- A call from inside `dlsym` has got ENOSYS, or gets it with its next step. -/
  reentrant : ∀ t i j f g, i < j → p.frame (t, i) = some f → f.Resolving → p.frame (t, j) = some g →
    ∃ w, g = .resolving w (.done ENOSYS) ∨ g = .resolving w .load ∧
      ∀ x, (p.resolve (t, j) w x .load).frame (t, j) = some (.resolving w (.done ENOSYS))
  /-- While RUNNING is an ancestor's, nobody resolves, and a call that loads it goes on, by itself,
  to reset it and to resolve anew. -/
  inherited : ∀ r, r ≠ p.pid → r < 2 ^ 32 → p.status = resolverStatus r .running →
    r ∈ p.ancestors ∧ (∀ a f, p.frame a = some f → ¬f.Resolving) ∧
    ∀ a w, p.frame a = some (.resolving w .load) → Reachable (· = p) Step (p.takeOver a w) ∧
      (p.takeOver a w).status = resolverStatus p.pid .running ∧
      (p.takeOver a w).frame a = some (.resolving w .activate) ∧ ∀ n, (p.takeOver a w).fresh n = false

theorem Inv.safe [DecidableEq T] (h : p.Inv) : p.Safe where
  ready := h.ready
  published a w := by
    refine ⟨fun ha => ?_, fun target ha => ?_⟩
    · have hr : p.Is .ready := h.frames a _ ha
      exact ⟨hr, (h.ready hr w).2⟩
    · obtain ⟨hr, rfl⟩ := h.frames a _ ha
      exact ⟨hr, rfl, (h.ready hr w).2⟩
  single := h.single
  failed hfail := by
    have hnr : ¬p.Is .ready := hfail.ne (by simp)
    refine ⟨fun q hq => ?_, fun a w x _ => (load_next w x).1 hfail, fun a w e ha => ?_,
      fun a w x => ⟨fun ha => hnr (h.frames a _ ha), fun ha => hnr (h.frames a _ ha).1⟩⟩
    · rcases hq with hs | ⟨t, -, -, -, -, hs, -⟩
      · rwa [Is, h.failed_step hfail hs]
      · rwa [Is, hs]
    · exact (h.frames a _ ha).resolve_left fun hd => hnr hd.2
  reentrant t i j f g hij hi hf hj := by
    obtain ⟨hact, hrun⟩ := h.below hij hi hf hj
    have hre := h.reentrant t i j f g hij hi hf hj
    cases g with
    | resolving w pc =>
      rcases hre with rfl | rfl
      · exact ⟨w, .inr ⟨rfl, fun x => (load_next w x).2.1 (is_of_status hrun) hact⟩⟩
      · exact ⟨w, .inl rfl⟩
    | _ => exact hre.elim
  inherited r hr hlt hs := by
    have hne : p.status ≠ resolverStatus p.pid .running := fun he =>
      hr (resolverStatus_inj hlt h.pid.1 (hs.symm.trans he)).1
    have hnr := h.nobody hne
    have hinact : ∀ t, p.active t = false := fun t => by
      by_contra hact
      obtain ⟨i, f, hi, hf⟩ := h.active t (by simpa using hact)
      exact hnr _ f hi hf.resolving
    have hpid : statusPid p.status ≠ p.pid := by rwa [hs, pid_resolverStatus hlt]
    refine ⟨?_, hnr, fun a w ha => ⟨?_, ?_⟩⟩
    · rcases h.status with hz | ⟨q, hq, state, hst, he⟩
      · exact absurd (hz ▸ hs).symm (resolverStatus_ne_zero r (by simp))
      · have hqlt : q < 2 ^ 32 := by
          rcases List.mem_cons.mp hq with rfl | hq
          · exact h.pid.1
          · exact h.pid.2.2 q hq
        obtain ⟨rfl, -⟩ := resolverStatus_inj hlt hqlt (hs.symm.trans he)
        exact (List.mem_cons.mp hq).resolve_left hr
    · have hrun : p.Is .running := is_of_status hs
      have ht : p.Top a := h.top_of_load ha
      exact takeOver_reachable w ha ht hrun (hinact a.1) hpid
    · rw [takeOver_eq w (is_of_status hs) (hinact a.1) hpid]
      exact ⟨rfl, Function.update_self .., fun _ => rfl⟩

end Process

/-- Every process of every run with any threads, interleavings, re-entrant calls and forks. -/
theorem resolver_safe [DecidableEq T] {ps : List (Process T)} (h : (resolvers T).Runs ps) :
    ∀ p ∈ ps, p.Safe := fun p hp =>
  (Forking.Runs.invariant (fun _ => Process.Inv.start) (fun _ _ => Process.Inv.step)
    (fun _ _ => Process.Inv.fork) h p hp).safe

/-- A process before the first call of a wrapper. -/
def unclaimed : Process Bool where
  pid := 5
  ancestors := []
  status := 0
  ptr _ := 0
  active _ := false
  frame _ := none
  fresh _ := false

/-- A thread has just won the compare-exchange in `pthread_mutex_lock`. -/
def claimed : Process Bool :=
  { unclaimed with
    status := resolverStatus 5 .running
    frame := Function.update (fun _ => none) (false, 0) (some (.resolving .mutexLock .activate)) }

/-- What another thread of `claimed` forks off. -/
def claimedChild : Process Bool :=
  { claimed with pid := 6, ancestors := [5], frame := fun _ => none }

theorem claimed_runs : (resolvers Bool).Runs [claimed, claimedChild] := by
  have hupdate : ∀ f g : Option Frame, Function.update (Function.update unclaimed.frame (false, 0) f)
      (false, 0) g = Function.update (fun _ => none) (false, 0) g := fun f g => by
    rw [Function.update_idem]
    rfl
  have hload : (unclaimed.setFrame (false, 0) (some (.resolving .mutexLock .load))).resolve (false, 0)
      .mutexLock 0 .load = unclaimed.setFrame (false, 0) (some (.resolving .mutexLock .claim)) := by
    rw [(Process.load_next _ 0).2.2.2 rfl, Process.setFrame, Process.setFrame, hupdate]
    rfl
  have hclaim : (unclaimed.setFrame (false, 0) (some (.resolving .mutexLock .claim))).resolve
      (false, 0) .mutexLock 0 .claim = claimed := by
    simp only [Process.resolve, Process.setFrame, hupdate]
    rfl
  have r : (resolvers Bool).Runs [unclaimed] :=
    .start ⟨unclaimed, ⟨by decide, rfl, rfl, fun _ => rfl, fun _ => rfl, fun _ => rfl⟩, rfl⟩
  have hstep : (resolvers Bool).step unclaimed _ :=
    Process.Step.call (a := (false, 0)) .mutexLock trivial rfl
  have r := r.next (.run (l := []) (r := []) hstep)
  have hstep : (resolvers Bool).step _ _ := Process.Step.resolve 0 (Process.frame_setFrame_self
    unclaimed (false, 0) (some (.resolving .mutexLock .load))) rfl (by simp)
  rw [hload] at hstep
  have r := r.next (.run (l := []) (r := []) hstep)
  have hstep : (resolvers Bool).step _ _ := Process.Step.resolve 0 (Process.frame_setFrame_self
    unclaimed (false, 0) (some (.resolving .mutexLock .claim))) rfl (by simp)
  rw [hclaim] at hstep
  have r := r.next (.run (l := []) (r := []) hstep)
  have hfork : (resolvers Bool).fork claimed claimedChild := by
    refine ⟨true, fun i w pc hf => ?_, by decide, by decide, rfl, rfl, rfl, rfl, ?_, ?_⟩
    · simp [claimed, Function.update_of_ne] at hf
    · funext u
      cases u <;> rfl
    · funext a
      by_cases h : a.1 = true
      · simp [claimed, claimedChild, unclaimed, h, Prod.ext_iff]
      · simp [claimedChild, h]
  exact r.next (.fork (l := []) (r := []) hfork)

theorem resolver_safe_claimed : claimed.Safe ∧ claimedChild.Safe :=
  ⟨resolver_safe claimed_runs _ (by simp), resolver_safe claimed_runs _ (by simp)⟩

end MuslBsd.Pthread
