import MuslBsd.Support.Transition

/-! `glibc_prepare_static_mutex` and the wrappers around it: any number of threads on one static
mutex that glibc initialised, one atomic access at a time. -/
namespace MuslBsd.Pthread
open MuslBsd.Support

def ENOTSUP : ℕ := 95

def GLIBC_MUTEX_KIND_WORD : Fin 10 := 4
def GLIBC_MUTEX_RECURSIVE_KIND : UInt32 := 1
def GLIBC_MUTEX_ERRORCHECK_KIND : UInt32 := 2

/-- The 40 bytes of a glibc `pthread_mutex_t`, as words. -/
abbrev Words := Fin 10 → UInt32

/-- The wrappers that prepare the mutex before they forward the call. -/
inductive MutexCall
  | destroy | lock | trylock | unlock | condWait | condTimedwait
  deriving DecidableEq, Repr

/-- Where a thread stands in `glibc_prepare_static_mutex`; `done` is its return value. -/
inductive Prepare
  | loadType
  | loadKind
  | exchange (kind : UInt32)
  | clearKind
  | done (error : ℕ)
  deriving DecidableEq, Repr

/-- The next atomic access of `glibc_prepare_static_mutex`, with the store it makes. -/
def Prepare.next (words : Words) : Prepare → Prepare × Option (Fin 10 × UInt32)
  | .loadType => if words 0 ≠ 0 then (.done 0, none) else (.loadKind, none)
  | .loadKind =>
    let kind := words GLIBC_MUTEX_KIND_WORD
    if kind = 0 then (.done 0, none)
    else if kind ≠ GLIBC_MUTEX_RECURSIVE_KIND ∧ kind ≠ GLIBC_MUTEX_ERRORCHECK_KIND then
      (.done ENOTSUP, none)
    else (.exchange kind, none)
  | .exchange kind => if words 0 = 0 then (.clearKind, some (0, kind)) else (.loadType, none)
  | .clearKind => (.done 0, some (GLIBC_MUTEX_KIND_WORD, 0))
  | .done error => (.done error, none)

/-- A thread: outside, in `native_pthread_ready`, in `glibc_prepare_static_mutex` after so many
accesses, or in the native function with the mutex type it found on entry. -/
inductive Caller
  | idle
  | resolving (call : MutexCall)
  | preparing (call : MutexCall) (at_ : Prepare) (accesses : ℕ)
  | native (call : MutexCall) (type : UInt32)
  deriving DecidableEq, Repr

/-- The mutex, its callers, and what `glibc_prepare_static_mutex` has stored so far. -/
structure MutexState (T : Type) where
  words : Words
  caller : T → Caller
  stores : List (Fin 10 × UInt32)

variable {T : Type} [DecidableEq T]

namespace MutexState

def go (s : MutexState T) (t : T) (c : Caller) : MutexState T :=
  { s with caller := Function.update s.caller t c }

def store (s : MutexState T) : Option (Fin 10 × UInt32) → MutexState T
  | none => s
  | some (i, v) => { s with words := Function.update s.words i v, stores := s.stores ++ [(i, v)] }

end MutexState

/-- Steps of one thread. The native functions use the words of the mutex as they like, save the
type in word 0, which they only read, and word 4, which they do not know. -/
inductive MutexStep : MutexState T → MutexState T → Prop
  | call {s : MutexState T} {t : T} (call : MutexCall) (h : s.caller t = .idle) :
    MutexStep s (s.go t (.resolving call))
  | ready {s : MutexState T} {t : T} {call : MutexCall} (error : ℕ)
      (h : s.caller t = .resolving call) :
    MutexStep s (s.go t (if error ≠ 0 then .idle else .preparing call .loadType 0))
  | prepare {s : MutexState T} {t : T} {call : MutexCall} {p : Prepare} {n : ℕ}
      (h : s.caller t = .preparing call p n) (hp : ∀ error, p ≠ .done error) :
    MutexStep s ((s.store (p.next s.words).2).go t
      (.preparing call (p.next s.words).1 (n + 1)))
  | forward {s : MutexState T} {t : T} {call : MutexCall} {error n : ℕ}
      (h : s.caller t = .preparing call (.done error) n) :
    MutexStep s (s.go t (if error ≠ 0 then .idle else .native call (s.words 0)))
  | native {s : MutexState T} {t : T} {call : MutexCall} {type : UInt32} (words : Words)
      (h : s.caller t = .native call type) (h0 : words 0 = s.words 0)
      (h4 : words GLIBC_MUTEX_KIND_WORD = s.words GLIBC_MUTEX_KIND_WORD) :
    MutexStep s { s with words := words }
  | leave {s : MutexState T} {t : T} {call : MutexCall} {type : UInt32}
      (h : s.caller t = .native call type) :
    MutexStep s (s.go t .idle)

/-- The runs on an untouched static mutex of kind `kind`. -/
def MutexRun (words : Words) : MutexState T → Prop :=
  Reachable (fun s => s = ⟨words, fun _ => .idle, []⟩) MutexStep

/-! ### What the mutex and its callers look like in every run -/

/-- The kinds that are turned into a native type. -/
def Convertible (kind : UInt32) : Prop :=
  kind = GLIBC_MUTEX_RECURSIVE_KIND ∨ kind = GLIBC_MUTEX_ERRORCHECK_KIND

instance (kind : UInt32) : Decidable (Convertible kind) := inferInstanceAs (Decidable (_ ∨ _))

/-- What `glibc_prepare_static_mutex` returns for a mutex of kind `kind`. -/
def prepareResult (kind : UInt32) : ℕ := if kind = 0 ∨ Convertible kind then 0 else ENOTSUP

/-- The words of the mutex after the stores made so far. -/
inductive Stored (kind : UInt32) (words : Words) : List (Fin 10 × UInt32) → Prop
  | nothing (h0 : words 0 = 0) (h4 : words GLIBC_MUTEX_KIND_WORD = kind) : Stored kind words []
  | type (hk : Convertible kind) (h0 : words 0 = kind)
      (h4 : words GLIBC_MUTEX_KIND_WORD = kind) : Stored kind words [(0, kind)]
  | both (hk : Convertible kind) (h0 : words 0 = kind) (h4 : words GLIBC_MUTEX_KIND_WORD = 0) :
    Stored kind words [(0, kind), (GLIBC_MUTEX_KIND_WORD, 0)]

/-- The accesses a thread may still make before it returns. -/
def Prepare.rank (words : Words) : Prepare → ℕ
  | .loadType => if words 0 = 0 then 4 else 1
  | .loadKind => 3
  | .exchange _ => 2
  | .clearKind => 1
  | .done _ => 0

def PrepareOk (kind : UInt32) (stores : List (Fin 10 × UInt32)) : Prepare → Prop
  | .loadType | .loadKind => True
  | .exchange k => k = kind ∧ Convertible kind
  | .clearKind => stores = [(0, kind)]
  | .done error => error = prepareResult kind ∧ (Convertible kind → stores ≠ [])

def CallerOk (kind : UInt32) (words : Words) (stores : List (Fin 10 × UInt32)) : Caller → Prop
  | .idle | .resolving _ => True
  | .preparing _ p n => n + p.rank words ≤ 4 ∧ PrepareOk kind stores p
  | .native _ type => prepareResult kind = 0 ∧ (Convertible kind → stores ≠ []) ∧ type = kind

/-- The thread has set the type and not yet cleared the kind. -/
def Caller.Clearing : Caller → Prop
  | .preparing _ .clearKind _ => True
  | _ => False

structure MutexInv (words : Words) (s : MutexState T) : Prop where
  stored : Stored (words GLIBC_MUTEX_KIND_WORD) s.words s.stores
  caller : ∀ t, CallerOk (words GLIBC_MUTEX_KIND_WORD) s.words s.stores (s.caller t)
  clearing : ∀ t u, (s.caller t).Clearing → (s.caller u).Clearing → t = u
  refused : prepareResult (words GLIBC_MUTEX_KIND_WORD) ≠ 0 → s.words = words

section Lemmas

variable {kind : UInt32} {words words' : Words} {stores stores' : List (Fin 10 × UInt32)}
  {s s' : MutexState T} {t : T} {c : Caller} {p : Prepare}

theorem convertible_ne_zero (h : Convertible kind) : kind ≠ 0 := by
  rcases h with rfl | rfl <;> decide

theorem Stored.of_words (h : Stored kind words stores) (h0 : words' 0 = words 0)
    (h4 : words' GLIBC_MUTEX_KIND_WORD = words GLIBC_MUTEX_KIND_WORD) :
    Stored kind words' stores := by
  cases h with
  | nothing g0 g4 => exact .nothing (h0.trans g0) (h4.trans g4)
  | type hk g0 g4 => exact .type hk (h0.trans g0) (h4.trans g4)
  | both hk g0 g4 => exact .both hk (h0.trans g0) (h4.trans g4)

theorem Stored.type_of_ne (h : Stored kind words stores) (hs : stores ≠ []) :
    Convertible kind ∧ words 0 = kind := by
  cases h with
  | nothing => exact absurd rfl hs
  | type hk h0 => exact ⟨hk, h0⟩
  | both hk h0 => exact ⟨hk, h0⟩

theorem Stored.zero_iff (h : Stored kind words stores) : words 0 = 0 ↔ stores = [] := by
  constructor
  · intro h0
    by_contra hs
    obtain ⟨hk, ht⟩ := h.type_of_ne hs
    exact convertible_ne_zero hk (ht.symm.trans h0)
  · rintro rfl
    cases h
    assumption

/-- What one access does: the store it makes extends the ones before, the thread stays within its
bounds, and only the thread that stored the type goes on to clear the kind. -/
theorem Prepare.next_spec (hst : Stored kind words stores) (hp : PrepareOk kind stores p)
    (hd : ∀ error, p ≠ .done error) :
    ∃ more words', (words', stores ++ more) =
        (match (p.next words).2 with
          | none => (words, stores)
          | some (i, v) => (Function.update words i v, stores ++ [(i, v)])) ∧
      Stored kind words' (stores ++ more) ∧ PrepareOk kind (stores ++ more) (p.next words).1 ∧
      (p.next words).1.rank words' < p.rank words ∧
      (words 0 = 0 ∨ words' 0 = words 0) ∧
      ((p.next words).1 = .clearKind → stores = []) ∧
      (p ≠ .clearKind → stores = [(0, kind)] → more = []) ∧
      (prepareResult kind ≠ 0 → words' = words) := by
  have h40 : GLIBC_MUTEX_KIND_WORD ≠ 0 := by decide
  cases p with
  | loadType =>
    refine ⟨[], words, ?_⟩
    by_cases h0 : words 0 = 0
    · simp [Prepare.next, h0, hst, PrepareOk, Prepare.rank]
    · have hs : stores ≠ [] := fun h => h0 (hst.zero_iff.mpr h)
      have hk := (hst.type_of_ne hs).1
      simp [Prepare.next, h0, hst, PrepareOk, Prepare.rank, prepareResult, hk, hs]
  | loadKind =>
    refine ⟨[], words, ?_⟩
    cases hst with
    | nothing h0 h4 =>
      by_cases hz : kind = 0
      · simp [Prepare.next, h4, hz, PrepareOk, Prepare.rank, prepareResult, Stored.nothing, h0,
          Convertible, GLIBC_MUTEX_RECURSIVE_KIND, GLIBC_MUTEX_ERRORCHECK_KIND]
      · by_cases hk : Convertible kind
        · have hk' : ¬(kind ≠ GLIBC_MUTEX_RECURSIVE_KIND ∧ kind ≠ GLIBC_MUTEX_ERRORCHECK_KIND) := by
            rcases hk with h | h <;> simp [h]
          simp [Prepare.next, h4, hz, hk, hk', PrepareOk, Prepare.rank, Stored.nothing, h0]
        · have hk' : kind ≠ GLIBC_MUTEX_RECURSIVE_KIND ∧ kind ≠ GLIBC_MUTEX_ERRORCHECK_KIND :=
            not_or.mp hk
          simp [Prepare.next, h4, hz, hk, hk', PrepareOk, Prepare.rank, Stored.nothing, h0,
            prepareResult]
    | type hk h0 h4 =>
      have hz := convertible_ne_zero hk
      have hk' : ¬(kind ≠ GLIBC_MUTEX_RECURSIVE_KIND ∧ kind ≠ GLIBC_MUTEX_ERRORCHECK_KIND) := by
        rcases hk with h | h <;> simp [h]
      simp [Prepare.next, h4, hz, hk, hk', PrepareOk, Prepare.rank, Stored.type, h0]
    | both hk h0 h4 =>
      simp [Prepare.next, h4, hk, PrepareOk, Prepare.rank, Stored.both, h0, prepareResult]
  | exchange k =>
    obtain ⟨rfl, hk⟩ := hp
    have hz := convertible_ne_zero hk
    by_cases h0 : words 0 = 0
    · obtain rfl := hst.zero_iff.mp h0
      have h4 : words GLIBC_MUTEX_KIND_WORD = k := by cases hst; assumption
      refine ⟨[(0, k)], Function.update words 0 k, ?_⟩
      have hst' : Stored k (Function.update words 0 k) [(0, k)] :=
        .type hk (by simp) (by rw [Function.update_of_ne h40, h4])
      simp [Prepare.next, h0, PrepareOk, Prepare.rank, prepareResult, hk, hst']
    · refine ⟨[], words, ?_⟩
      simp [Prepare.next, h0, hst, PrepareOk, Prepare.rank]
  | clearKind =>
    have hs : stores = [(0, kind)] := hp
    subst hs
    obtain ⟨hk, h0⟩ := hst.type_of_ne (by simp)
    refine ⟨[(GLIBC_MUTEX_KIND_WORD, 0)], Function.update words GLIBC_MUTEX_KIND_WORD 0, ?_⟩
    have hb : Stored kind (Function.update words GLIBC_MUTEX_KIND_WORD 0)
        [(0, kind), (GLIBC_MUTEX_KIND_WORD, 0)] :=
      .both hk (by rw [Function.update_of_ne h40.symm, h0]) (by simp)
    simp [Prepare.next, PrepareOk, Prepare.rank, prepareResult, hk, hb, h40.symm]
  | done error => exact absurd rfl (hd error)

theorem rank_le (hw : words 0 = 0 ∨ words' 0 = words 0) (p : Prepare) :
    p.rank words' ≤ p.rank words := by
  cases p with
  | loadType =>
    rcases hw with h | h
    · simp only [Prepare.rank, h, if_true]
      split <;> omega
    · simp only [Prepare.rank, h]
      exact Nat.le_refl _
  | _ => exact Nat.le_refl _

theorem Caller.Clearing.preparing {call : MutexCall} {n : ℕ}
    (h : (Caller.preparing call p n).Clearing) : p = .clearKind := by
  cases p <;> first | rfl | exact h.elim

theorem CallerOk.of_clearing (h : CallerOk kind words stores c) (hc : c.Clearing) :
    stores = [(0, kind)] := by
  cases c with
  | preparing call p n =>
    cases p with
    | clearKind => exact h.2
    | _ => exact hc.elim
  | _ => exact hc.elim

/-- What a caller relies on survives the accesses of the others. -/
theorem CallerOk.stable (h : CallerOk kind words stores c)
    (hs : ∃ more, stores' = stores ++ more ∧ (c.Clearing → stores = [(0, kind)] → more = []))
    (hw : words 0 = 0 ∨ words' 0 = words 0) : CallerOk kind words' stores' c := by
  obtain ⟨more, rfl, hc⟩ := hs
  cases c with
  | idle => trivial
  | resolving call => trivial
  | preparing call p n =>
    obtain ⟨hr, hp⟩ := h
    have hrank := rank_le hw p
    refine ⟨by omega, ?_⟩
    cases p with
    | clearKind =>
      have hp : stores = [(0, kind)] := hp
      rw [hc trivial hp, hp]
      rfl
    | done error => exact ⟨hp.1, fun hk => by simp [hp.2 hk]⟩
    | _ => exact hp
  | native call type => exact ⟨h.1, fun hk => by simp [h.2.1 hk], h.2.2⟩

/-- A step that stores nothing and moves one caller. -/
theorem MutexInv.go (h : MutexInv words s)
    (hc : CallerOk (words GLIBC_MUTEX_KIND_WORD) s.words s.stores c)
    (hn : c.Clearing → (s.caller t).Clearing) : MutexInv words (s.go t c) where
  stored := h.stored
  refused := h.refused
  caller u := by
    by_cases hu : u = t
    · subst hu
      simpa [MutexState.go] using hc
    · simpa [MutexState.go, hu] using h.caller u
  clearing u v hu hv := by
    have back : ∀ x, ((s.go t c).caller x).Clearing → (s.caller x).Clearing := fun x hx => by
      by_cases hxt : x = t
      · subst hxt
        exact hn (by simpa [MutexState.go] using hx)
      · simpa [MutexState.go, hxt] using hx
    exact h.clearing u v (back u hu) (back v hv)

omit [DecidableEq T] in
theorem mutexInv_start (words : Words) (h0 : words 0 = 0) :
    MutexInv words (⟨words, fun _ => .idle, []⟩ : MutexState T) where
  stored := .nothing h0 rfl
  caller _ := trivial
  clearing _ _ h := h.elim
  refused _ := rfl

theorem mutexInv_prepare {call : MutexCall} {n : ℕ} (h : MutexInv words s)
    (ht : s.caller t = .preparing call p n) (hd : ∀ error, p ≠ .done error) :
    MutexInv words ((s.store (p.next s.words).2).go t (.preparing call (p.next s.words).1 (n + 1))) := by
  have hp := h.caller t
  rw [ht] at hp
  obtain ⟨more, w, hw, hst, hok, hrank, hw0, hclear, hmore, href⟩ :=
    Prepare.next_spec h.stored hp.2 hd
  have hstate : s.store (p.next s.words).2 = ⟨w, s.caller, s.stores ++ more⟩ := by
    cases hn : (p.next s.words).2 with
    | none =>
      rw [hn] at hw
      obtain ⟨rfl, hs⟩ := Prod.mk.inj hw
      rw [hs]
      rfl
    | some iv =>
      rw [hn] at hw
      obtain ⟨rfl, hs⟩ := Prod.mk.inj hw
      rw [hs]
      rfl
  rw [hstate]
  have hothers : ∀ u, u ≠ t → (s.caller u).Clearing → s.stores = [(0, words GLIBC_MUTEX_KIND_WORD)] →
      more = [] := fun u hu hc hs => hmore (fun hpc => hu (h.clearing u t hc (by rw [ht, hpc]; trivial))) hs
  refine ⟨hst, fun u => ?_, fun u v hu hv => ?_, fun hr => (href hr).trans (h.refused hr)⟩
  · by_cases hu : u = t
    · subst hu
      simp only [MutexState.go, Function.update_self]
      exact ⟨by have := hp.1; omega, hok⟩
    · simp only [MutexState.go, Function.update_of_ne hu]
      exact (h.caller u).stable ⟨more, rfl, hothers u hu⟩ hw0
  · -- a thread that goes on to clear has just stored the type, so no other one has
    have none : (p.next s.words).1 = .clearKind → ∀ x, ¬(s.caller x).Clearing := fun hc x hx => by
      have hs : s.stores = [(0, words GLIBC_MUTEX_KIND_WORD)] := (h.caller x).of_clearing hx
      rw [hclear hc] at hs
      simp at hs
    by_cases hut : u = t <;> by_cases hvt : v = t
    · rw [hut, hvt]
    · subst hut
      simp only [MutexState.go, Function.update_self, Function.update_of_ne hvt] at hu hv
      exact absurd hv (none hu.preparing v)
    · subst hvt
      simp only [MutexState.go, Function.update_self, Function.update_of_ne hut] at hu hv
      exact absurd hu (none hv.preparing u)
    · simp only [MutexState.go, Function.update_of_ne hut, Function.update_of_ne hvt] at hu hv
      exact h.clearing u v hu hv

theorem mutexInv_step (h : MutexInv words s) (hs : MutexStep s s') : MutexInv words s' := by
  cases hs with
  | call call ht => exact h.go trivial (by simp [Caller.Clearing])
  | @ready t call error ht =>
    by_cases he : error ≠ 0
    · rw [if_pos he]
      exact h.go trivial (by simp [Caller.Clearing])
    · rw [if_neg he]
      refine h.go ⟨?_, trivial⟩ (by simp [Caller.Clearing])
      simp only [Prepare.rank]
      split <;> omega
  | prepare ht hp => exact mutexInv_prepare h ht hp
  | @forward t call error n ht =>
    have hc := h.caller t
    rw [ht] at hc
    obtain ⟨-, he, hs⟩ := hc
    by_cases hz : error ≠ 0
    · rw [if_pos hz]
      exact h.go trivial (by simp [Caller.Clearing])
    · rw [if_neg hz]
      have hz : prepareResult (words GLIBC_MUTEX_KIND_WORD) = 0 := he ▸ not_not.mp hz
      refine h.go ⟨hz, hs, ?_⟩ (by simp [Caller.Clearing])
      by_cases hk : Convertible (words GLIBC_MUTEX_KIND_WORD)
      · exact (h.stored.type_of_ne (hs hk)).2
      · have hk0 : words GLIBC_MUTEX_KIND_WORD = 0 := by
          by_contra h0
          simp [prepareResult, hk, h0, ENOTSUP] at hz
        rw [hk0]
        refine h.stored.zero_iff.mpr ?_
        by_contra hne
        exact hk (h.stored.type_of_ne hne).1
  | @native t call type w ht h0 h4 =>
    refine ⟨h.stored.of_words h0 h4, fun u => ?_, h.clearing, fun hr => ?_⟩
    · exact (h.caller u).stable ⟨[], by simp, fun _ _ => rfl⟩ (.inr h0)
    · have hc := h.caller t
      rw [ht] at hc
      exact absurd hc.1 hr
  | leave ht => exact h.go trivial (by simp [Caller.Clearing])

theorem mutexInv_run (h0 : words 0 = 0) (h : MutexRun words s) : MutexInv words s :=
  Reachable.invariant (P := MutexInv words) (fun _ hs => hs ▸ mutexInv_start words h0)
    (fun _ _ h hs => mutexInv_step h hs) h

end Lemmas

/-- In every run on an untouched static mutex: a recursive or error-checking kind is stored into
word 0 once and cleared from word 4 after that, and every caller that gets 0 finds it in word 0;
a normal mutex is left alone; any other kind is refused and nothing is touched. No call makes
more than four accesses. -/
theorem static_mutex_conversion (words : Words) (h0 : words 0 = 0) {s : MutexState T}
    (h : MutexRun words s) :
    (Convertible (words GLIBC_MUTEX_KIND_WORD) →
      Stored (words GLIBC_MUTEX_KIND_WORD) s.words s.stores ∧
      (∀ t call error n, s.caller t = .preparing call (.done error) n →
        error = 0 ∧ s.words 0 = words GLIBC_MUTEX_KIND_WORD) ∧
      ∀ t call type, s.caller t = .native call type →
        type = words GLIBC_MUTEX_KIND_WORD ∧ s.words 0 = words GLIBC_MUTEX_KIND_WORD) ∧
    (words GLIBC_MUTEX_KIND_WORD = 0 →
      s.stores = [] ∧ s.words 0 = 0 ∧ s.words GLIBC_MUTEX_KIND_WORD = 0 ∧
      ∀ t call error n, s.caller t = .preparing call (.done error) n → error = 0) ∧
    (¬Convertible (words GLIBC_MUTEX_KIND_WORD) → words GLIBC_MUTEX_KIND_WORD ≠ 0 →
      s.stores = [] ∧ s.words = words ∧ (∀ t call type, s.caller t ≠ .native call type) ∧
      ∀ t call error n, s.caller t = .preparing call (.done error) n → error = ENOTSUP) ∧
    ∀ t call p n, s.caller t = .preparing call p n → n ≤ 4 ∧ (n = 4 → ∃ error, p = .done error) := by
  have hinv := mutexInv_run h0 h
  have hdone : ∀ t call error n, s.caller t = .preparing call (.done error) n →
      error = prepareResult (words GLIBC_MUTEX_KIND_WORD) ∧
        (Convertible (words GLIBC_MUTEX_KIND_WORD) → s.stores ≠ []) := fun t call error n ht => by
    have hc := hinv.caller t
    rw [ht] at hc
    exact hc.2
  have hnative : ∀ t call type, s.caller t = .native call type →
      prepareResult (words GLIBC_MUTEX_KIND_WORD) = 0 ∧
        (Convertible (words GLIBC_MUTEX_KIND_WORD) → s.stores ≠ []) ∧
        type = words GLIBC_MUTEX_KIND_WORD := fun t call type ht => by
    have hc := hinv.caller t
    rwa [ht] at hc
  have hnil : ¬Convertible (words GLIBC_MUTEX_KIND_WORD) → s.stores = [] := fun hk => by
    by_contra hs
    exact hk (hinv.stored.type_of_ne hs).1
  refine ⟨fun hk => ⟨hinv.stored, fun t call error n ht => ?_, fun t call type ht => ?_⟩,
    fun hz => ?_, fun hk hz => ?_, fun t call p n ht => ?_⟩
  · obtain ⟨rfl, hs⟩ := hdone t call error n ht
    exact ⟨by simp [prepareResult, hk], (hinv.stored.type_of_ne (hs hk)).2⟩
  · obtain ⟨-, hs, ht⟩ := hnative t call type ht
    exact ⟨ht, (hinv.stored.type_of_ne (hs hk)).2⟩
  · have hs := hnil fun hk => convertible_ne_zero hk hz
    have hst := hinv.stored
    rw [hs] at hst
    cases hst with
    | nothing g0 g4 =>
      refine ⟨hs, g0, g4.trans hz, fun t call error n ht => ?_⟩
      rw [(hdone t call error n ht).1]
      simp [prepareResult, hz]
  · have hr : prepareResult (words GLIBC_MUTEX_KIND_WORD) = ENOTSUP := by simp [prepareResult, hk, hz]
    have hne : prepareResult (words GLIBC_MUTEX_KIND_WORD) ≠ 0 := by rw [hr]; decide
    exact ⟨hnil hk, hinv.refused hne, fun t call type ht => hne (hnative t call type ht).1,
      fun t call error n ht => (hdone t call error n ht).1.trans hr⟩
  · have hc := hinv.caller t
    rw [ht] at hc
    have hn : n + p.rank s.words ≤ 4 := hc.1
    refine ⟨by omega, fun h4 => ?_⟩
    have hzero : p.rank s.words = 0 := by omega
    cases p with
    | done error => exact ⟨error, rfl⟩
    | loadType =>
      simp only [Prepare.rank] at hzero
      split at hzero <;> omega
    | _ => simp [Prepare.rank] at hzero

/-- A thread that read the type before another one converted the mutex, and the kind after. -/
theorem static_mutex_late_reader :
    ∃ s : MutexState Bool, MutexRun (fun i => if i = 4 then 1 else 0) s ∧
      s.caller true = .preparing .lock (.done 0) 2 ∧ s.words 0 = 1 ∧
      s.stores = [(0, 1), (GLIBC_MUTEX_KIND_WORD, 0)] := by
  have r : MutexRun (T := Bool) (fun i => if i = 4 then 1 else 0) _ := .start rfl
  have r := r.next (.call (t := false) .lock rfl)
  have r := r.next (.ready (t := false) 0 rfl)
  have r := r.next (.call (t := true) .lock rfl)
  have r := r.next (.ready (t := true) 0 rfl)
  have r := r.next (.prepare (t := true) (p := .loadType) rfl (by simp))
  have r := r.next (.prepare (t := false) (p := .loadType) rfl (by simp))
  have r := r.next (.prepare (t := false) (p := .loadKind) rfl (by simp))
  have r := r.next (.prepare (t := false) (p := .exchange 1) rfl (by simp))
  have r := r.next (.prepare (t := false) (p := .clearKind) rfl (by simp))
  have r := r.next (.prepare (t := true) (p := .loadKind) rfl (by simp))
  exact ⟨_, r, rfl, ((static_mutex_conversion _ rfl r).1 (by decide)).2.1 true .lock 0 2 rfl |>.2, rfl⟩

end MuslBsd.Pthread
