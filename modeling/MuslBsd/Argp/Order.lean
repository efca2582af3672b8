import MuslBsd.Argp.Scan
import MuslBsd.Argp.Rounds
import Mathlib.Data.List.GetD

/-! The rounds of the parsing loop, with parsers that leave `state->next` alone. -/
namespace MuslBsd.Argp
open MuslBsd.Support
open Faulting (Returns)

variable {π σ : Type}

/-! ### Parsers that accept -/

/-- The parsers leave `state->next` alone, and what is being parsed with it. -/
structure Passive (E : Env π σ) : Prop where
  next : ∀ parser key arg shown w, (E.respond parser key arg shown w).next = shown.next
  argv : ∀ parser key arg shown w, (E.respond parser key arg shown w).argv = shown.argv
  longOnly : ∀ parser key arg shown w,
    Has (E.respond parser key arg shown w).flags ARGP_LONG_ONLY ↔ Has shown.flags ARGP_LONG_ONLY
  argv0 : ∀ parser key arg shown w,
    Has (E.respond parser key arg shown w).flags ARGP_PARSE_ARGV0 ↔
      Has shown.flags ARGP_PARSE_ARGV0

/-- The next call is one more try with the same argument. -/
def GoesOn : List Call → Prop
  | [] => False
  | c :: _ => c.key = .arg ∨ c.key = .args

/-- Every option is accepted, and every argument by `ARGP_KEY_ARG`, after parsers that do not know
what to do with it. -/
def Accepted : List Call → Prop
  | [] => True
  | c :: calls =>
    (match c.key with
      | .option _ => c.err = 0
      | .arg => c.err = 0 ∨ c.err = EBADKEY ∧ GoesOn calls
      | .args => c.err = EBADKEY ∧ GoesOn calls
      | _ => True) ∧ Accepted calls

theorem Accepted.of_append {calls calls' : List Call} (h : Accepted (calls ++ calls')) :
    Accepted calls' := by
  induction calls with
  | nil => exact h
  | cons c calls ih => exact ih h.2

/-- The last call of those that are accepted, if nothing more is tried after it. -/
theorem Accepted.last {calls calls' : List Call} {c : Call} (h : Accepted (calls ++ [c] ++ calls'))
    (hno : ¬GoesOn calls') : c.key ≠ .args ∧ (c.key = .arg → c.err = 0) := by
  rw [List.append_assoc] at h
  have hc := h.of_append.1
  constructor
  · intro hkey
    rw [hkey] at hc
    exact hno hc.2
  · intro hkey
    rw [hkey] at hc
    rcases hc with hzero | hbad
    · exact hzero
    · exact (hno hbad.2).elim

/-! ### Positions -/

/-- What stays the same. -/
structure Setting (π : Type) where
  groups : List (Group π)
  ordering : Ordering
  longOnly : Bool
  argv0 : Bool

/-- Where the parse is. -/
structure Pos where
  argv : List CStr
  next : ℕ
  first : ℕ
  last : ℕ
  nextchar : Option (CChar × CStr)
  argsOnly : Bool

/-- The state is at a position. -/
structure Stands (X : Setting π) (p : Pos) (s : Parser π σ) : Prop where
  argv : s.argv = p.argv
  next : s.next = p.next
  first : s.firstNonopt = p.first
  last : s.lastNonopt = p.last
  nextchar : s.nextchar = p.nextchar
  argsOnly : s.argsOnly = p.argsOnly
  quoted : s.quoted ≤ p.next
  unquoted : p.argsOnly = false → s.quoted = 0
  firstLe : p.first ≤ p.last
  lastLe : p.last ≤ p.next
  ordering : s.ordering = X.ordering
  longOnly : Has s.flags ARGP_LONG_ONLY ↔ X.longOnly
  argv0 : Has s.flags ARGP_PARSE_ARGV0 ↔ X.argv0
  shortOpts : X.longOnly → s.shortOpts = some (shortKeys X.groups)
  numGroups : s.numGroups = X.groups.length
  groups : ∀ g, (X.groups.getD g .nil).Alike (s.groups g)

section

variable {E : Env π σ} {X : Setting π} {p : Pos} {s s' : Parser π σ}

theorem Stands.argc (h : Stands X p s) : s.argc = p.argv.length := by
  unfold Parser.argc
  rw [h.argv]

theorem Stands.setNext (h : Stands X p s) {n : ℕ} (hn : p.next ≤ n) :
    Stands X { p with next := n } { s with next := n } :=
  { h with
    next := rfl
    quoted := by
      have hq := h.quoted
      show s.quoted ≤ (n : ℤ)
      omega
    lastLe := h.lastLe.trans hn }

theorem Stands.setEbadkey (h : Stands X p s) (b : Bool) : Stands X p { s with argEbadkey := b } :=
  { h with }

/-- A call leaves the position. -/
theorem Stands.called (h : Stands X p s) (hE : Passive E) {g : ℕ} {key : Key} {arg : Option CStr}
    {err : ℤ} {acts : List Act} (hc : Called E g key arg s err s' acts) : Stands X p s' := by
  have hframed := hc.framed
  have hkept := hc.still.toKept
  have hsame : s'.next = s.next ∧ s'.argv = s.argv ∧
      (Has s'.flags ARGP_LONG_ONLY ↔ Has s.flags ARGP_LONG_ONLY) ∧
      (Has s'.flags ARGP_PARSE_ARGV0 ↔ Has s.flags ARGP_PARSE_ARGV0) := by
    cases hp : (s.groups g).parser with
    | none =>
      rw [(hc.idle hp).2.1]
      exact ⟨rfl, rfl, Iff.rfl, Iff.rfl⟩
    | some parser =>
      obtain ⟨a, ha, -, hs, -⟩ := hc.answer parser hp
      rw [hs, ha]
      exact ⟨hE.next parser key.code arg (s.shown g) s.world,
        hE.argv parser key.code arg (s.shown g) s.world,
        hE.longOnly parser key.code arg (s.shown g) s.world,
        hE.argv0 parser key.code arg (s.shown g) s.world⟩
  constructor
  · exact hsame.2.1.trans h.argv
  · exact hsame.1.trans h.next
  · rw [hframed]
    exact h.first
  · rw [hframed]
    exact h.last
  · rw [hframed.nextchar]
    exact h.nextchar
  · rw [hframed.argsOnly]
    exact h.argsOnly
  · rw [hframed]
    exact h.quoted
  · rw [hframed]
    exact h.unquoted
  · exact h.firstLe
  · exact h.lastLe
  · rw [hframed]
    exact h.ordering
  · exact hsame.2.2.1.trans h.longOnly
  · exact hsame.2.2.2.trans h.argv0
  · rw [hframed]
    exact h.shortOpts
  · exact hkept.numGroups.trans h.numGroups
  · intro g'
    exact (h.groups g').trans (hkept.groups g')

/-! ### Calls -/

theorem Stands.parser (h : Stands X p s) {g : ℕ} (hg : HasParser X.groups g) :
    ∃ parser, (s.groups g).parser = some parser := by
  obtain ⟨group, hget, hsome⟩ := hg
  obtain ⟨hlt, rfl⟩ := List.getElem?_eq_some_iff.mp hget
  have halike := (h.groups g).parser
  rw [List.getD_eq_getElem _ _ hlt] at halike
  rw [halike]
  exact Option.isSome_iff_exists.mp hsome

/-- How the tries with an argument end. -/
inductive Tried.Ends (X : Setting π) (p : Pos) (val : CStr) : Tried → List Act → Parser π σ → Prop
  | accepted {refused : List Act} {c : Call} {g : ℕ} {s : Parser π σ} (before : Refused refused)
      (key : c.key = .arg) (err : c.err = 0) (arg : c.arg = some val)
      (stands : Stands X { p with next := p.next + 1 } s) :
      Ends X p val ⟨0, .arg, g⟩ (refused ++ [.calls c]) s
  | refused {acts : List Act} {tried : Tried} {s : Parser π σ} (all : Refused acts)
      (err : tried.err ≠ 0) : Ends X p val tried acts s
  | taken {refused : List Act} {c : Call} {tried : Tried} {s : Parser π σ} (before : Refused refused)
      (key : c.key = .args) (err : c.err = 0) : Ends X p val tried (refused ++ [.calls c]) s

theorem Tried.Ends.after {val : CStr} {tried : Tried} {before acts : List Act}
    (h : Tried.Ends X p val tried acts s) (hb : Refused before) :
    Tried.Ends X p val tried (before ++ acts) s := by
  cases h with
  | accepted hbefore key err arg stands =>
    rw [← List.append_assoc]
    exact .accepted (hb.append hbefore) key err arg stands
  | refused all err => exact .refused (hb.append all) err
  | taken hbefore key err =>
    rw [← List.append_assoc]
    exact .taken (hb.append hbefore) key err

/-- By induction on the groups that are left. -/
theorem tryParsers_ends (hE : Passive E) (val : CStr) (gs : List ℕ) (s : Parser π σ)
    (h : Stands X p s) : ∃ tried s' acts, tryParsers E val gs s = (.ok tried, s', acts) ∧
      Tried.Ends X p val tried acts s' ∧
      ((∃ g ∈ gs, ∃ parser, (s.groups g).parser = some parser) → acts ≠ []) := by
  induction gs generalizing s with
  | nil =>
    refine ⟨_, s, [], rfl, .refused .nil EBADKEY_ne, ?_⟩
    intro hex
    obtain ⟨g, hg, -⟩ := hex
    cases hg
  | cons g gs ih =>
    have hup : Stands X { p with next := p.next + 1 } { s with next := s.next + 1 } := by
      have hset := h.setNext (Nat.le_succ p.next)
      have hnext : s.next + 1 = ((p.next + 1 : ℕ) : ℤ) := by
        rw [h.next]
        rfl
      rw [hnext]
      exact hset
    obtain ⟨err, s₁, acts, hrun, hcalled⟩ :=
      groupParse_run E g .arg (some val) { s with next := s.next + 1 }
    have htries := hcalled.tries (.inl rfl)
    have hstands₁ := hup.called hE hcalled
    unfold tryParsers modify
    rw [Faulting.modify_bind_run, Faulting.bind_ok hrun]
    by_cases herr : err = EBADKEY
    · rw [if_pos herr]
      have hrefused : Refused acts := htries.refused (herr ▸ EBADKEY_ne)
      have hdown : Stands X p { s₁ with next := s₁.next - 1 } :=
        { hstands₁ with
          next := by
            have hn := hstands₁.next
            show s₁.next - 1 = p.next
            rw [hn]
            push_cast
            omega
          quoted := by
            have hf : s₁.quoted = s.quoted := by
              rw [hcalled.framed]
            show s₁.quoted ≤ p.next
            rw [hf]
            exact h.quoted
          lastLe := h.lastLe }
      obtain ⟨err', s₂, acts', hrun', hcalled'⟩ :=
        groupParse_run E g .args none { s₁ with next := s₁.next - 1 }
      have htries' := hcalled'.tries (.inr rfl)
      have hstands₂ := hdown.called hE hcalled'
      rw [Faulting.modify_bind_run, Faulting.bind_ok hrun']
      have hcall : (∃ parser, (s.groups g).parser = some parser) → acts ≠ [] := by
        intro hex
        obtain ⟨parser, hp⟩ := hex
        obtain ⟨a, -, -, -, hacts⟩ := hcalled.answer parser hp
        rw [hacts]
        simp
      by_cases herr' : err' = EBADKEY
      · rw [if_pos herr']
        have hrefused' : Refused acts' := htries'.refused (herr' ▸ EBADKEY_ne)
        obtain ⟨tried, s₃, rest, hrest, hends, hcalls⟩ := ih s₂ hstands₂
        rw [hrest]
        refine ⟨tried, s₃, _, rfl, (hends.after hrefused').after hrefused, ?_⟩
        intro hex
        obtain ⟨g', hg', hp⟩ := hex
        rcases List.mem_cons.mp hg' with rfl | hg'
        · intro hnil
          exact hcall hp (List.append_eq_nil_iff.mp hnil).1
        · obtain ⟨parser, hp⟩ := hp
          intro hnil
          have hrestnil := (List.append_eq_nil_iff.mp (List.append_eq_nil_iff.mp hnil).2).2
          refine hcalls ⟨g', hg', parser, ?_⟩ hrestnil
          rw [hcalled'.still.parser g']
          exact (hcalled.still.parser g').trans hp
      · rw [if_neg herr']
        refine ⟨_, s₂, _, rfl, ?_, ?_⟩
        · rw [Faulting.pure_run]
          dsimp only
          rw [List.append_nil]
          apply Tried.Ends.after ?_ hrefused
          by_cases hzero : err' = 0
          · obtain ⟨refused, c, hacts, hbefore, -, hkey, hcerr, -⟩ := htries'.taken hzero
            rw [hacts]
            exact .taken hbefore hkey hcerr
          · exact .refused (htries'.refused hzero) hzero
        · intro _ hnil
          rcases hcalled'.acts with ⟨-, hbad⟩ | ⟨c, hc, -⟩
          · exact herr' hbad
          · rw [hc] at hnil
            simp at hnil
    · rw [if_neg herr]
      rcases hcalled.acts with ⟨-, hbad⟩ | ⟨c, hacts, -, hkey, hcerr, -, -, harg⟩
      · exact (herr hbad).elim
      · refine ⟨_, s₁, _, rfl, ?_, ?_⟩
        · rw [Faulting.pure_run]
          dsimp only
          rw [List.append_nil, hacts]
          by_cases hzero : err = 0
          · subst hzero
            exact .accepted .nil hkey hcerr harg hstands₁
          · rw [← hacts]
            exact .refused (htries.refused hzero) hzero
        · intro _ hnil
          rw [hacts] at hnil
          simp at hnil

/-! ### Rounds -/

/-- A round delivers this and leads to such a state, unless a parser does not accept. -/
def Moves (after : Parser π σ → Prop) (ds : List Delivery) (err : ℤ) (s' : Parser π σ)
    (acts : List Act) : Prop :=
  err = 0 ∧ after s' ∧ deliveries acts = ds ∨
    ∀ rest, (err ≠ 0 → rest = []) → ¬Accepted (callsOf acts ++ rest)

theorem settle_eq (h : Stands X p s) : settle s = s := by
  have hq := h.quoted
  have hf : (p.first : ℤ) ≤ p.last := Int.ofNat_le.mpr h.firstLe
  have hl : (p.last : ℤ) ≤ p.next := Int.ofNat_le.mpr h.lastLe
  have hnext := h.next
  have hfirst := h.first
  have hlast := h.last
  have hnoq : ¬(s.quoted ≠ 0 ∧ s.next < s.quoted) := by omega
  have hnol : ¬s.next < s.lastNonopt := by omega
  have hnof : ¬s.next < s.firstNonopt := by omega
  unfold settle
  simp only [if_neg hnoq, if_neg hnol, if_neg hnof]

/-- What a round does with an element of this type. -/
def parseElement (E : Env π σ) (a : CStr) : ArgType → ParserM π σ ℤ
  | .arg => parseNonOption E a
  | .quote => parseQuote
  | .longOption opt => parseLong E a [dash, dash] opt
  | .longOnlyOption opt => parseLong E a (a.take 1) opt
  | .shortOption first rest => do
    modify fun s => { s with next := s.next + 1, nextchar := some (first, rest) }
    pure 0

/-- A round without a bundle. -/
theorem parserParseNext_none (h : Stands X p s) (hn : p.nextchar = none) :
    parserParseNext E s =
      (if s.argsOnly then do
        setEbadkey true
        if s.argc ≤ s.next then pure EBADKEY
        else do
          let arg ← argvAt s.next
          parserParseArg E arg
      else if s.argc ≤ s.next then do
        setEbadkey true
        if s.firstNonopt ≠ s.lastNonopt then do
          rewindNonopts
          modify fun s => { s with argsOnly := true }
          pure 0
        else pure EBADKEY
      else do
        let arg ← argvAt s.next
        let c ← look fun s => classifyArg (Has s.flags ARGP_LONG_ONLY) s.shortOpts arg
        parseElement E arg c : ParserM π σ ℤ) s := by
  have hnone : s.nextchar = none := h.nextchar.trans hn
  unfold parserParseNext get
  unfold modify
  rw [Faulting.modify_bind_run, settle_eq h, Faulting.gets_bind_run]
  simp only [id_eq, hnone]
  rfl

/-- The argument that `argvAt` reads. -/
theorem argvAt_run {α : Type} {f : CStr → ParserM π σ α} {n : ℕ} {val : CStr} {i : ℤ} (hi : i = n)
    (hval : s.argv[n]? = some val) : (argvAt i >>= f) s = f val s := by
  have hrun : argvAt i s = (.ok val, s, []) := by
    unfold argvAt get
    rw [Faulting.gets_bind_run, if_pos (by omega), hi]
    simp only [id_eq, Int.toNat_natCast, hval]
    rfl
  rw [Faulting.bind_ok hrun]
  simp

theorem look_run {α β : Type} {g : Parser π σ → Except Fault α} {f : α → ParserM π σ β} {a : α}
    (h : g s = .ok a) : (look g >>= f) s = f a s := by
  have hrun : look g s = (.ok a, s, []) := by
    unfold look get
    rw [Faulting.gets_bind_run]
    simp only [id_eq, h]
    rfl
  rw [Faulting.bind_ok hrun]
  simp

theorem look_fault {α β : Type} {g : Parser π σ → Except Fault α} {f : α → ParserM π σ β}
    {x : Fault} (h : g s = .error x) : (look g >>= f) s = (.error x, s, []) := by
  have hrun : look g s = (.error x, s, []) := by
    unfold look get
    rw [Faulting.gets_bind_run]
    simp only [id_eq, h]
    rfl
  exact Faulting.bind_error hrun

theorem deliveries_refused {acts : List Act} (h : Refused acts) : deliveries acts = [] := by
  unfold deliveries
  rw [List.filterMap_eq_nil_iff]
  intro c hc
  obtain ⟨c', hc', herr, -⟩ := h.calls _ (mem_callsOf.mp hc)
  cases hc'
  unfold Call.delivery?
  rw [if_neg herr]

theorem countArg_returns (tried : Tried) (index : ℤ) (s : Parser π σ) :
    Returns (countArg tried index) s fun _ _ acts => callsOf acts = [] := by
  unfold countArg addProcessed
  rw [returns_modify_bind, returns_get_bind, returns_emit_bind, Faulting.returns_ite]
  constructor
  · intro _
    rw [returns_modify]
    rfl
  · intro _
    rw [returns_modify]
    rfl

/-- An accepted argument is counted, and nothing else changes. -/
theorem countArg_stands {g : ℕ} {index : ℤ} (h : Stands X p s) (hlt : index < s.next) :
    Returns (countArg ⟨0, .arg, g⟩ index) s fun _ s' acts => callsOf acts = [] ∧ Stands X p s' := by
  have hkey : ¬Key.arg = Key.args := by decide
  obtain ⟨s', hadd, hkept, hs, -⟩ := addProcessed_run s g (s.next - index)
  unfold countArg
  rw [returns_modify_bind, if_neg hkey, returns_get_bind, returns_emit_bind, if_pos hlt]
  refine ⟨(), s', [], hadd, rfl, ?_⟩
  have hstands : Stands X p { s with groups := s'.groups } :=
    { h with groups := fun g' => (h.groups g').trans (hkept.groups g') }
  rw [hs]
  exact hstands

/-- The last call of a refusal is not followed by one more try. -/
theorem not_accepted_refused {acts : List Act} (h : Refused acts) (hne : acts ≠ []) :
    ¬Accepted (callsOf acts) := by
  intro hacc
  rcases List.eq_nil_or_concat acts with hnil | ⟨before, a, hacts⟩
  · exact hne hnil
  · rw [List.concat_eq_append] at hacts
    obtain ⟨c, rfl, herr, hkey⟩ := h.calls a (by rw [hacts]; simp)
    rw [hacts, callsOf_append] at hacc
    have hlast := hacc.of_append
    have hc : callsOf [.calls c] = [c] := rfl
    rw [hc] at hlast
    have hclause := hlast.1
    cases hk : c.key with
    | option k =>
      rw [hk] at hclause
      exact herr hclause
    | arg =>
      rw [hk] at hclause
      rcases hclause with hzero | hbad
      · exact herr hzero
      · exact hbad.2
    | args =>
      rw [hk] at hclause
      exact hclause.2
    | _ =>
      rw [hk] at hkey
      cases hkey

/-- An argument is tried. -/
theorem parseArg_moves (hE : Passive E) (h : Stands X p s) (val : CStr)
    (hparser : ∃ g, HasParser X.groups g) :
    Returns (parserParseArg E val) s
      (Moves (Stands X { p with next := p.next + 1 }) [.arg val]) := by
  obtain ⟨tried, s₁, acts, hrun, hends, hcalls⟩ :=
    tryParsers_ends hE val (List.range s.numGroups) s h
  have hne : acts ≠ [] := by
    obtain ⟨g, hg⟩ := hparser
    apply hcalls
    refine ⟨g, ?_, h.parser hg⟩
    obtain ⟨group, hget, -⟩ := hg
    rw [List.mem_range, h.numGroups]
    exact (List.getElem?_eq_some_iff.mp hget).1
  unfold parserParseArg
  rw [returns_get_bind, Faulting.returns_bind]
  refine ⟨tried, s₁, acts, hrun, ?_⟩
  cases hends with
  | accepted hbefore hkey hcerr harg hstands =>
    rename_i refused c g
    have hlt : s.next < s₁.next := by
      rw [h.next, hstands.next]
      push_cast
      omega
    rw [if_pos rfl, Faulting.returns_bind]
    apply (countArg_stands (g := g) hstands hlt).mono
    intro _ s' acts' hs'
    rw [Faulting.returns_pure]
    refine .inl ⟨rfl, hs'.2, ?_⟩
    have hcall : deliveries [.calls c] = [.arg val] := by
      simp [deliveries, callsOf, Act.call?, Call.delivery?, hcerr, hkey, harg]
    have hrest : deliveries acts' = [] := by
      unfold deliveries
      rw [hs'.1]
      rfl
    rw [List.append_nil, deliveries_append, deliveries_append, deliveries_refused hbefore, hcall,
      hrest]
    rfl
  | refused hall herr =>
    rw [if_neg herr, Faulting.returns_pure]
    refine .inr ?_
    intro rest hrest
    rw [hrest herr, List.append_nil, List.append_nil]
    exact not_accepted_refused hall hne
  | taken hbefore hkey hcerr =>
    rename_i refused c
    have hno : ∀ acts' : List Act, ∀ rest,
        ¬Accepted (callsOf (refused ++ [.calls c] ++ acts') ++ rest) := by
      intro acts' rest hacc
      rw [callsOf_append, callsOf_append, List.append_assoc, List.append_assoc] at hacc
      have hclause := hacc.of_append.1
      rw [hkey, hcerr] at hclause
      exact EBADKEY_ne hclause.1.symm
    rw [Faulting.returns_ite]
    constructor
    · intro _
      rw [Faulting.returns_bind]
      apply (countArg_returns tried s.next s₁).mono
      intro _ s' acts' _
      rw [Faulting.returns_pure]
      exact .inr fun rest _ => hno _ rest
    · intro _
      rw [Faulting.returns_pure]
      exact .inr fun rest _ => hno _ rest

/-- A parser is called with an option. -/
theorem groupParse_moves (hE : Passive E) (h : Stands X p s) {g : ℕ} (hg : HasParser X.groups g)
    (k : ℤ) (arg : Option CStr) :
    Returns (groupParse E g (.option k) arg) s (Moves (Stands X p) [.option g k arg]) := by
  obtain ⟨parser, hp⟩ := h.parser hg
  obtain ⟨err, s', acts, hrun, hcalled⟩ := groupParse_run E g (.option k) arg s
  obtain ⟨a, -, herr, -, hacts⟩ := hcalled.answer parser hp
  refine ⟨err, s', acts, hrun, ?_⟩
  rw [hacts]
  by_cases hzero : err = 0
  · refine .inl ⟨hzero, h.called hE hcalled, ?_⟩
    have hcerr : (s.call g (.option k) arg a).err = 0 := herr.symm.trans hzero
    show [_].filterMap Call.delivery? = _
    unfold Call.delivery?
    simp only [List.filterMap_cons, if_pos hcerr]
    rfl
  · refine .inr ?_
    intro rest _ hacc
    exact hzero (herr.trans hacc.1)

end

end MuslBsd.Argp
