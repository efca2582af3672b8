import MuslBsd.Fts.Refinement.Open

/-! Runs of a stream: `fts_open`, and then any calls of `fts_read`, `fts_children` and `fts_set`. -/
namespace MuslBsd.Fts
open MuslBsd.Support Traced

variable {ω : Type}

/-- A call on an open stream. -/
inductive Call
  | read
  | children (instr : ℤ)
  | set (p : NodeId) (instr : ℤ)
  deriving DecidableEq, Repr

/-- What a call returns: a node or NULL, or whether it failed. -/
inductive Answer
  | node (p : Option NodeId)
  | failed (b : Bool)
  deriving DecidableEq, Repr

section Definitions

variable (E : Env ω)

def ftsCall : Call → M ω Answer
  | .read => do
    let p ← ftsRead E
    pure (.node p)
  | .children instr => do
    let p ← ftsChildren E instr
    pure (.node p)
  | .set p instr => do
    let b ← ftsSet p instr
    pure (.failed b)

/-- `ftsCall`. -/
def Walk.call (z : Walk) : Call → SysM ω (Answer × Walk)
  | .read => do
    let (p, z) ← Walk.read E z
    pure (.node p, z)
  | .children instr => do
    let (p, z) ← Walk.children E instr z
    pure (.node p, z)
  | .set p instr => do
    let (b, z) ← Walk.set p instr z
    pure (.failed b, z)

/-- One call of a run: the stream before it and after it, its answer and what it did. -/
structure Step (ω : Type) where
  before : St ω
  call : Call
  answer : Answer
  after : St ω
  acts : List Act

/-- `fts_open` gives the stream `st` and does `t`. -/
def Opens (argv : Option (List CString)) (options : ℕ) (compar : Option Compar) (w : ω) (st : St ω)
    (t : List Act) : Prop :=
  ftsOpen E argv options compar (St.start w) = (.ok true, st, t)

/-- Calls that the stream `st₀` answers one after the other, each of them `ok` in the state that it
meets. -/
inductive Calls (ok : St ω → Call → Prop) (st₀ : St ω) : List (Step ω) → St ω → Prop
  | nil : Calls ok st₀ [] st₀
  | snoc {steps : List (Step ω)} {st st' : St ω} {c : Call} {x : Answer} {t : List Act}
      (h : Calls ok st₀ steps st) (hok : ok st c) (hc : ftsCall E c st = (.ok x, st', t)) :
      Calls ok st₀ (steps ++ [⟨st, c, x, st', t⟩]) st'

end Definitions

variable {E : Env ω} {st st' : St ω} {z : Walk} {t : List Act}

theorem call_lock (h : Rep st z) (c : Call) :
    Lock (ftsCall E c) (Walk.call E z c) st fun x st' y => x = y.1 ∧ Rep st' y.2 := by
  cases c with
  | read =>
    refine sim_bind (read_lock h) ?_
    rintro x st₁ ⟨y, z'⟩ ⟨rfl, hr⟩ - -
    exact lock_pure ⟨rfl, hr⟩
  | children instr =>
    refine sim_bind (children_lock h) ?_
    rintro x st₁ ⟨y, z'⟩ ⟨rfl, hr⟩ - -
    exact lock_pure ⟨rfl, hr⟩
  | set p instr =>
    refine sim_bind (set_lock h p) ?_
    rintro x st₁ ⟨y, z'⟩ ⟨rfl, hr⟩ - -
    exact lock_pure ⟨rfl, hr⟩

/-- A call that is answered does what the walk does. -/
theorem Rep.call (h : Rep st z) {c : Call} {x : Answer} (hc : ftsCall E c st = (.ok x, st', t)) :
    t = acts (Walk.call E z c) st.sys ∧ st'.sys = out (Walk.call E z c) st.sys ∧
      x = (val (Walk.call E z c) st.sys).1 ∧ Rep st' (val (Walk.call E z c) st.sys).2 := by
  obtain ⟨ht, hs, hx, hr⟩ := (call_lock h c).of_ok hc
  exact ⟨ht, hs, hx, hr⟩

/-- A stream that has been opened is a walk. -/
theorem Opens.rep {argv : Option (List CString)} {options : ℕ} {compar : Option Compar} {w : ω}
    (h : Opens E argv options compar w st t) :
    ∃ z, val (Walk.open E argv options compar) (St.start w).sys = some z ∧ Rep st z ∧
      st.sys = out (Walk.open E argv options compar) (St.start w).sys ∧
      t = acts (Walk.open E argv options compar) (St.start w).sys := by
  obtain ⟨ht, hs, ho⟩ := (open_lock E argv options compar w).of_ok h
  rcases ho with ⟨hx, -⟩ | ⟨z, -, hz, hr⟩
  · exact absurd hx (by simp)
  · exact ⟨z, hz, hr, hs, ht⟩

/-- What the walk has at first and every call keeps, the walk has after every run. -/
theorem Calls.invariant {ok : St ω → Call → Prop} {I : List (Step ω) → Sys ω → Walk → Prop}
    {st₀ : St ω} {z₀ : Walk} {steps : List (Step ω)} (h : Calls E ok st₀ steps st)
    (h₀ : Rep st₀ z₀) (hi : I [] st₀.sys z₀)
    (hcall : ∀ (steps : List (Step ω)) (st : St ω) (z : Walk) (c : Call) (st' : St ω),
      Rep st z → I steps st.sys z → ok st c →
      Rep st' (val (Walk.call E z c) st.sys).2 → st'.sys = out (Walk.call E z c) st.sys →
      I (steps ++ [⟨st, c, (val (Walk.call E z c) st.sys).1, st', acts (Walk.call E z c) st.sys⟩])
        st'.sys (val (Walk.call E z c) st.sys).2) :
    ∃ z, Rep st z ∧ I steps st.sys z := by
  induction h with
  | nil => exact ⟨z₀, h₀, hi⟩
  | snoc h hok hc ih =>
    obtain ⟨z, hr, hI⟩ := ih
    obtain ⟨rfl, hs, rfl, hr'⟩ := hr.call hc
    exact ⟨_, hr', hcall _ _ _ _ _ hr hI hok hr' hs⟩

/-! ### Runs that are carried out -/

section Sessions

variable (E : Env ω)

/-- The calls `cs` on the stream `st`, if all of them are answered. -/
def play : List Call → St ω → Option (List (Step ω) × St ω)
  | [], st => some ([], st)
  | c :: cs, st =>
    match ftsCall E c st with
    | (.ok x, st', t) => (play cs st').map fun r => (⟨st, c, x, st', t⟩ :: r.1, r.2)
    | (.error _, _, _) => none

/-- The steps of a stream that is opened and then called with `cs`. -/
def session (argv : List CString) (options : ℕ) (compar : Option Compar) (w : ω) (cs : List Call) :
    Option (List (Step ω)) :=
  match ftsOpen E (some argv) options compar (St.start w) with
  | (.ok true, st, _) => (play E cs st).map Prod.fst
  | _ => none

end Sessions

theorem Calls.play {ok : St ω → Call → Prop} {st₀ : St ω} {cs : List Call} :
    ∀ {steps more : List (Step ω)} {st st' : St ω}, Calls E ok st₀ steps st →
      play E cs st = some (more, st') → (∀ x ∈ more, ok x.before x.call) →
      Calls E ok st₀ (steps ++ more) st' := by
  induction cs with
  | nil =>
    intro steps more st st' h hp _
    cases hp
    rw [List.append_nil]
    exact h
  | cons c cs ih =>
    intro steps more st st' h hp hok
    unfold Fts.play at hp
    split at hp
    · next x st₁ t hc =>
      obtain ⟨r, hr, he⟩ := Option.map_eq_some_iff.mp hp
      obtain ⟨rfl, rfl⟩ := Prod.mk.inj he
      have hstep := h.snoc (hok _ List.mem_cons_self) hc
      have hmore := ih hstep hr fun y hy => hok y (List.mem_cons_of_mem _ hy)
      rwa [List.append_assoc] at hmore
    · cases hp

/-- The steps of a session are a run. -/
theorem session_calls (ok : St ω → Call → Prop) {argv : List CString} {options : ℕ} {compar : Option Compar}
    {w : ω} {cs : List Call} {steps : List (Step ω)} (h : session E argv options compar w cs = some steps)
    (hok : ∀ x ∈ steps, ok x.before x.call) : ∃ st₀ t st, Opens E (some argv) options compar w st₀ t ∧
      Calls E ok st₀ steps st := by
  unfold session at h
  split at h
  · next st₀ t ho =>
    obtain ⟨r, hr, rfl⟩ := Option.map_eq_some_iff.mp h
    exact ⟨st₀, t, r.2, ho, Calls.play .nil hr hok⟩
  · cases h

end MuslBsd.Fts
