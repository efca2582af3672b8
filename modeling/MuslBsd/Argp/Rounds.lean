import MuslBsd.Argp.Keys

/-! The states in which `parser_parse_next` reads only what is there, and trips no assertion. -/
namespace MuslBsd.Argp
open MuslBsd.Support
open Faulting (Returns)

variable {π σ : Type}

/-! ### Careful states -/

namespace Parser

variable (s : Parser π σ)

/-- What `exchange` moves is there. -/
def Exchangeable : Prop :=
  s.lastNonopt < s.next → s.firstNonopt < s.lastNonopt → 0 ≤ s.firstNonopt ∧ s.next ≤ s.argc

/-- The short option `c`, with `rest` behind it, can be looked up, and its argument can be read. -/
def CarefulShort (c : CChar) (rest : CStr) : Prop :=
  ∃ found, findShortOption s.groups s.numGroups (charToInt c) = .ok found ∧
    ∀ g o, found = some (g, o) → o.arg.isSome → rest = [] → ¬Has o.flags OPTION_ARG_OPTIONAL →
      s.next ≠ s.argc → s.Readable s.next

/-- The element `arg` can be classified, and then be dealt with. -/
def CarefulElement (arg : CStr) : Prop :=
  match classifyArg (Has s.flags ARGP_LONG_ONLY) s.shortOpts arg with
  | .error _ => False
  | .ok .arg => s.ordering = .permute → s.Exchangeable
  | .ok .quote => Exchangeable { s with next := s.next + 1 }
  | .ok (.longOption opt) | .ok (.longOnlyOption opt) =>
    ∃ found, findLongOption s.groups s.numGroups opt = .ok found
  | .ok (.shortOption _ _) => True

/-- The next round, from a state with settled segments. -/
def CarefulRound : Prop :=
  match s.nextchar with
  | some (c, rest) => s.CarefulShort c rest
  | none =>
    if s.argsOnly then s.next < s.argc → 0 ≤ s.next
    else if s.argc ≤ s.next then s.firstNonopt ≠ s.lastNonopt → s.Exchangeable
    else 0 ≤ s.next ∧ ∀ arg ∈ s.argv[s.next.toNat]?, s.CarefulElement arg

/-- The next round stays within what the caller has passed. -/
def Careful : Prop := (settle s).CarefulRound

/-- While there is a bundle, options are looked for. -/
def Bundled : Prop := s.nextchar.isSome → s.argsOnly = false

end Parser

/-! ### Parts of a round -/

variable {E : Env π σ} {s : Parser π σ}

/-- The state after `exchange`. -/
def Parser.exchanged (s : Parser π σ) : Parser π σ :=
  { s with
    argv := exchangeSegments (s.next - s.firstNonopt).toNat s.argv s.firstNonopt.toNat
      s.lastNonopt.toNat s.next.toNat
    firstNonopt := s.firstNonopt + (s.next - s.lastNonopt)
    lastNonopt := s.next }

theorem returns_exchange {post : Unit → Parser π σ → List Act → Prop} (h : s.Exchangeable) :
    Returns exchange s post ↔ post () s.exchanged [] := by
  have hno : ¬(s.lastNonopt < s.next ∧ s.firstNonopt < s.lastNonopt ∧
      (s.firstNonopt < 0 ∨ s.argc < s.next)) := by
    intro hbad
    have hin := h hbad.1 hbad.2.1
    omega
  unfold exchange
  rw [returns_get_bind, if_neg hno, returns_modify]
  rfl

theorem exchange_returns {α : Type} {f : Unit → ParserM π σ α}
    {post : α → Parser π σ → List Act → Prop} (h : s.Exchangeable) :
    Returns (exchange >>= f) s post ↔ Returns (f ()) s.exchanged post := by
  rw [Faulting.returns_bind, returns_exchange h]
  rfl

/-- The elements of `argv` from `i` up to `j`. -/
def Parser.segment (s : Parser π σ) (i j : ℤ) : List CStr :=
  (s.argv.drop i.toNat).take (j - i).toNat

/-- The segments change their places, and the records follow the one that was in front. -/
theorem exchange_segments (hfirst : 0 ≤ s.firstNonopt) (hlast : s.firstNonopt ≤ s.lastNonopt)
    (hnext : s.lastNonopt ≤ s.next) (hargc : s.next ≤ s.argc) :
    ∃ s', exchange s = (.ok (), s', []) ∧
      Exchanges s.argv s.firstNonopt.toNat s.lastNonopt.toNat s.next.toNat s'.argv ∧
      s' = { s with
        argv := s.argv.take s.firstNonopt.toNat ++ s.segment s.lastNonopt s.next ++
          s.segment s.firstNonopt s.lastNonopt ++ s.argv.drop s.next.toNat
        firstNonopt := s.next - (s.lastNonopt - s.firstNonopt)
        lastNonopt := s.next } ∧
      s'.segment s'.firstNonopt s'.lastNonopt = s.segment s.firstNonopt s.lastNonopt := by
  have hargv : s.argc = s.argv.length := rfl
  have hmoved : s.exchanged.argv = s.argv.take s.firstNonopt.toNat ++
      s.segment s.lastNonopt s.next ++ s.segment s.firstNonopt s.lastNonopt ++
      s.argv.drop s.next.toNat := by
    have hbounds := exchangeSegments_bounds (s.next - s.firstNonopt).toNat s.argv
      s.firstNonopt.toNat s.lastNonopt.toNat s.next.toNat (by omega) (by omega) (by omega)
      (by omega)
    have hbehind : s.next.toNat - s.lastNonopt.toNat = (s.next - s.lastNonopt).toNat := by omega
    have hfront : s.lastNonopt.toNat - s.firstNonopt.toNat =
        (s.lastNonopt - s.firstNonopt).toNat := by omega
    rw [hbehind, hfront] at hbounds
    exact hbounds
  have hstart : s.exchanged.firstNonopt = s.next - (s.lastNonopt - s.firstNonopt) := by
    show s.firstNonopt + (s.next - s.lastNonopt) = _
    omega
  have hrun : exchange s = (.ok (), s.exchanged, []) := by
    have hreturns : Returns exchange s fun _ s' acts => s' = s.exchanged ∧ acts = [] := by
      have hexchangeable : s.Exchangeable := by
        intro _ _
        omega
      rw [returns_exchange hexchangeable]
      exact ⟨rfl, rfl⟩
    obtain ⟨_, s', acts, hrun, rfl, rfl⟩ := hreturns
    exact hrun
  refine ⟨s.exchanged, hrun, ?_, ?_, ?_⟩
  · apply exchangeSegments_ends
    omega
  · rw [← hmoved, ← hstart]
    rfl
  · have hend : s.exchanged.lastNonopt = s.next := rfl
    have hlen₁ : (s.argv.take s.firstNonopt.toNat ++ s.segment s.lastNonopt s.next).length =
        s.exchanged.firstNonopt.toNat := by
      unfold Parser.segment
      rw [List.length_append, List.length_take, List.length_take, List.length_drop]
      omega
    have hlen₂ : (s.segment s.firstNonopt s.lastNonopt).length =
        (s.exchanged.lastNonopt - s.exchanged.firstNonopt).toNat := by
      unfold Parser.segment
      rw [List.length_take, List.length_drop]
      omega
    show (s.exchanged.argv.drop _).take _ = _
    rw [hmoved, ← hlen₁, ← hlen₂, List.append_assoc, List.drop_left, List.take_left]

/-- A parser that has skipped two elements, and has parsed the three behind them. -/
def parsedBehind : Parser Unit Unit where
  groups _ := ⟨none, none, 0, 0, none, 0, 0, fun _ => 0, 0⟩
  numGroups := 0
  shortOpts := none
  posixlyCorrect := false
  argsOnly := false
  printErrors := false
  ordering := .permute
  firstNonopt := 1
  lastNonopt := 3
  nextchar := none
  argv := [[letterP], [letterA], [letterB], [dash, letterX], [dash, ⟨121, by decide⟩],
    [dash, letterZ], [⟨99, by decide⟩]]
  next := 6
  flags := 0
  quoted := 0
  errStream := false
  argEbadkey := false
  world := ()

theorem exchange_segments_behind :
    ∃ s', exchange parsedBehind = (.ok (), s', []) ∧
      Exchanges parsedBehind.argv 1 3 6 s'.argv ∧
      s' = { parsedBehind with
        argv := parsedBehind.argv.take 1 ++ parsedBehind.segment 3 6 ++
          parsedBehind.segment 1 3 ++ parsedBehind.argv.drop 6
        firstNonopt := 4
        lastNonopt := 6 } ∧
      s'.segment s'.firstNonopt s'.lastNonopt = parsedBehind.segment 1 3 :=
  exchange_segments (by decide) (by decide) (by decide) (by decide)

theorem groupParse_returns (g : ℕ) (key : Key) (arg : Option CStr) :
    Returns (groupParse E g key arg) s fun _ s' _ => Framed s s' := by
  obtain ⟨err, s', acts, hrun, hcalled⟩ := groupParse_run E g key arg s
  exact ⟨err, s', acts, hrun, hcalled.framed⟩

theorem Framed.bundled {s s' : Parser π σ} (h : Framed s s') (hs : s.Bundled) : s'.Bundled := by
  unfold Parser.Bundled
  rw [h.nextchar, h.argsOnly]
  exact hs

/-- `print`, then the end with `EBADKEY`. -/
theorem reject_returns (m : Message) : Returns (do
    print m
    setEbadkey false
    pure EBADKEY : ParserM π σ ℤ) s fun _ s' _ => s' = { s with argEbadkey := false } := by
  rw [returns_print_bind]
  simp

theorem parseShort_returns {c : CChar} {rest : CStr} (hargs : s.argsOnly = false)
    (h : s.CarefulShort c rest) :
    Returns (parseShort E c rest) s fun _ s' _ => s'.argsOnly = false := by
  obtain ⟨found, hfound, hread⟩ := h
  have hframe : ∀ {s₁ : Parser π σ} (g : ℕ) (key : Key) (arg : Option CStr), s₁.argsOnly = false →
      Returns (groupParse E g key arg) s₁ fun _ s' _ => s'.argsOnly = false := by
    intro s₁ g key arg h₁
    apply (groupParse_returns g key arg).mono
    intro _ s' _ hs'
    rw [hs'.argsOnly]
    exact h₁
  have hno : ¬s.argsOnly = true := by simp [hargs]
  unfold parseShort
  rw [returns_get_bind, if_neg hno, returns_modify_bind, returns_look_bind]
  refine ⟨found, hfound, ?_⟩
  cases found with
  | none =>
    apply (reject_returns _).mono
    intro _ s' _ hs'
    rw [hs']
    exact hargs
  | some found =>
    obtain ⟨g, o⟩ := found
    dsimp only
    rw [Faulting.returns_ite]
    constructor
    · intro harg
      rw [returns_modify_bind, Faulting.returns_ite]
      constructor
      · intro hneeds
        rw [Faulting.returns_ite]
        constructor
        · intro _
          apply (reject_returns _).mono
          intro _ s' _ hs'
          rw [hs']
          exact hargs
        · intro hne
          have hin := hread g o rfl harg hneeds.1 hneeds.2 hne
          obtain ⟨value, hvalue⟩ := hin.elem
          rw [returns_argvAt_bind]
          refine ⟨hin.1, value, hvalue, ?_⟩
          rw [returns_setNext_bind]
          exact hframe _ _ _ hargs
      · intro _
        exact hframe _ _ _ hargs
    · intro _
      exact hframe _ _ _ hargs

theorem parserParseArg_returns (val : CStr) :
    Returns (parserParseArg E val) s fun _ s' _ => s'.nextchar = s.nextchar := by
  obtain ⟨tried, s₁, acts, hrun, htries⟩ := tryParsers_run E val (List.range s.numGroups) s
  have hnext : s₁.nextchar = s.nextchar := htries.framed.nextchar
  unfold parserParseArg
  rw [returns_get_bind, Faulting.returns_bind]
  refine ⟨tried, s₁, acts, hrun, ?_⟩
  show Returns (if tried.err = 0 then _ else _) s₁ _
  rw [Faulting.returns_ite]
  constructor
  · intro _
    have hargs : (if tried.key = .args then { s₁ with next := s₁.argc } else s₁).nextchar =
        s.nextchar := by
      split
      · exact hnext
      · exact hnext
    rw [Faulting.returns_bind]
    unfold countArg addProcessed
    rw [returns_modify_bind, returns_get_bind, returns_emit_bind, Faulting.returns_ite]
    constructor
    · intro _
      rw [returns_modify, Faulting.returns_pure]
      exact hargs
    · intro _
      rw [returns_modify, Faulting.returns_pure]
      exact hargs
  · intro _
    rw [Faulting.returns_pure]
    exact hnext

theorem parseLong_returns {arg start opt : CStr} (hlt : s.next < s.argc) (hnext : 0 ≤ s.next)
    (h : ∃ found, findLongOption s.groups s.numGroups opt = .ok found) :
    Returns (parseLong E arg start opt) s fun _ s' _ => s'.nextchar = s.nextchar := by
  obtain ⟨found, hfound⟩ := h
  have hframe : ∀ {s₁ : Parser π σ} (g : ℕ) (key : Key) (arg : Option CStr),
      s₁.nextchar = s.nextchar →
      Returns (groupParse E g key arg) s₁ fun _ s' _ => s'.nextchar = s.nextchar := by
    intro s₁ g key arg h₁
    apply (groupParse_returns g key arg).mono
    intro _ s' _ hs'
    rw [hs'.nextchar]
    exact h₁
  unfold parseLong
  rw [returns_modify_bind, returns_look_bind]
  refine ⟨found, hfound, ?_⟩
  cases found with
  | inr ambiguous =>
    apply (reject_returns _).mono
    intro _ s' _ hs'
    rw [hs']
  | inl found =>
    obtain ⟨g, o⟩ := found
    dsimp only
    rw [Faulting.returns_ite]
    constructor
    · intro _
      apply (reject_returns _).mono
      intro _ s' _ hs'
      rw [hs']
    · intro _
      rw [Faulting.returns_ite]
      constructor
      · intro _
        rw [returns_get_bind, Faulting.returns_ite]
        constructor
        · intro _
          apply (reject_returns _).mono
          intro _ s' _ hs'
          rw [hs']
        · intro hne
          have hin : Parser.Readable { s with next := s.next + 1 } (s.next + 1) := by
            have hne' : s.next + 1 ≠ s.argc := hne
            refine ⟨by omega, ?_⟩
            show s.next + 1 < s.argc
            omega
          obtain ⟨value, hvalue⟩ := hin.elem
          rw [returns_argvAt_bind]
          refine ⟨hin.1, value, hvalue, ?_⟩
          rw [returns_setNext_bind, returns_setEbadkey_bind]
          exact hframe _ _ _ rfl
      · intro _
        rw [returns_setEbadkey_bind]
        exact hframe _ _ _ rfl

/-- The assertion of `parser_parse_next` on the skipped arguments holds. -/
theorem extendNonopts_returns (h : s.Exchangeable) :
    Returns extendNonopts s fun _ s' _ => s'.lastNonopt = s'.next ∧ s'.nextchar = s.nextchar := by
  unfold extendNonopts
  rw [returns_get_bind, Faulting.returns_ite]
  constructor
  · intro _
    rw [returns_modify]
    exact ⟨rfl, rfl⟩
  · intro _
    rw [Faulting.returns_ite]
    constructor
    · intro _
      rw [returns_exchange h]
      exact ⟨rfl, rfl⟩
    · intro heq
      rw [Faulting.returns_pure]
      exact ⟨not_not.mp heq, rfl⟩

theorem parseNonOption_returns {arg : CStr} (h : s.ordering = .permute → s.Exchangeable) :
    Returns (parseNonOption E arg) s fun _ s' _ => s'.nextchar = s.nextchar := by
  unfold parseNonOption
  rw [returns_get_bind]
  cases ho : s.ordering with
  | permute =>
    dsimp only
    rw [Faulting.returns_bind]
    apply (extendNonopts_returns (h ho)).mono
    intro _ s' _ hs'
    rw [returns_get_bind, if_neg (not_not.mpr hs'.1), returns_modify_bind, Faulting.returns_pure]
    exact hs'.2
  | requireOrder =>
    dsimp only
    rw [returns_modify_bind, Faulting.returns_pure]
  | returnInOrder =>
    dsimp only
    rw [returns_setEbadkey_bind]
    exact parserParseArg_returns arg

theorem rewindNonopts_returns {f : Unit → ParserM π σ ℤ} {p : Parser π σ → Prop} (h : s.Exchangeable)
    (hf : ∀ s' : Parser π σ, s'.nextchar = s.nextchar → Returns (f ()) s' fun _ s'' _ => p s'') :
    Returns (rewindNonopts >>= f) s fun _ s' _ => p s' := by
  unfold rewindNonopts
  rw [Faulting.returns_bind, exchange_returns h, returns_modify]
  exact hf _ rfl

theorem parseQuote_returns (hlast : s.lastNonopt ≤ s.next)
    (h : Parser.Exchangeable { s with next := s.next + 1 }) :
    Returns parseQuote s fun _ s' _ => s'.nextchar = s.nextchar := by
  have hno : ¬s.lastNonopt = s.next + 1 := by omega
  unfold parseQuote
  rw [returns_modify_bind, returns_get_bind, if_neg hno, Faulting.returns_ite]
  constructor
  · intro _
    apply rewindNonopts_returns h
    intro s' hs'
    rw [returns_modify_bind, Faulting.returns_pure]
    exact hs'
  · intro _
    rw [returns_modify_bind, Faulting.returns_pure]

/-! ### A round -/

@[simp] theorem settle_next (s : Parser π σ) : (settle s).next = s.next := by
  unfold settle
  dsimp only
  split_ifs <;> rfl

theorem settle_lastNonopt (s : Parser π σ) :
    (settle s).lastNonopt = min s.lastNonopt s.next := by
  unfold settle
  dsimp only
  split_ifs
  all_goals
    first
    | omega
    | dsimp only at *
      omega

theorem Parser.Bundled.settle (h : s.Bundled) : (settle s).Bundled := by
  unfold Parser.Bundled at h ⊢
  unfold Argp.settle
  dsimp only
  split_ifs
  all_goals
    intro hsome
    first
    | rfl
    | exact h hsome

/-- A careful round does not fault. -/
theorem parserParseNext_returns (hb : s.Bundled) (h : s.Careful) :
    Returns (parserParseNext E) s fun _ s' _ => s'.Bundled := by
  have hb' := hb.settle
  have hlast : (settle s).lastNonopt ≤ (settle s).next := by
    rw [settle_lastNonopt, settle_next]
    exact min_le_right _ _
  unfold Parser.Careful at h
  unfold parserParseNext
  rw [returns_modify_bind, returns_get_bind]
  generalize settle s = s at hb' hlast h
  have hdone : ∀ {s' : Parser π σ}, s.nextchar = none → s'.nextchar = s.nextchar → s'.Bundled := by
    intro s' hnone hs' hsome
    rw [hs', hnone] at hsome
    cases hsome
  unfold Parser.CarefulRound at h
  cases hn : s.nextchar with
  | some bundle =>
    obtain ⟨c, rest⟩ := bundle
    rw [hn] at h
    apply (parseShort_returns (hb' (by rw [hn]; rfl)) h).mono
    intro _ s' _ hs' _
    exact hs'
  | none =>
    rw [hn] at h
    dsimp only at h ⊢
    rw [Faulting.returns_ite]
    constructor
    · intro hargs
      rw [if_pos hargs] at h
      rw [returns_setEbadkey_bind, Faulting.returns_ite]
      constructor
      · intro _
        rw [Faulting.returns_pure]
        exact hdone hn rfl
      · intro hlt
        have hin : s.Readable s.next := ⟨h (not_le.mp hlt), not_le.mp hlt⟩
        obtain ⟨arg, harg⟩ := hin.elem
        rw [returns_argvAt_bind]
        refine ⟨hin.1, arg, harg, ?_⟩
        apply (parserParseArg_returns arg).mono
        intro _ s' _ hs'
        exact hdone hn hs'
    · intro hargs
      rw [if_neg hargs] at h
      rw [Faulting.returns_ite]
      constructor
      · intro hle
        rw [if_pos hle] at h
        rw [returns_setEbadkey_bind, Faulting.returns_ite]
        constructor
        · intro hne
          have hex : Parser.Exchangeable { s with argEbadkey := true } := h hne
          apply rewindNonopts_returns hex
          intro s' hs'
          rw [returns_modify_bind, Faulting.returns_pure]
          exact hdone hn hs'
        · intro _
          rw [Faulting.returns_pure]
          exact hdone hn rfl
      · intro hlt
        rw [if_neg hlt] at h
        have hin : s.Readable s.next := ⟨h.1, not_le.mp hlt⟩
        obtain ⟨arg, harg⟩ := hin.elem
        have helem := h.2 arg harg
        unfold Parser.CarefulElement at helem
        rw [returns_argvAt_bind]
        refine ⟨hin.1, arg, harg, ?_⟩
        rw [returns_look_bind]
        cases hc : classifyArg (Has s.flags ARGP_LONG_ONLY) s.shortOpts arg with
        | error e =>
          rw [hc] at helem
          exact helem.elim
        | ok type =>
          rw [hc] at helem
          refine ⟨type, rfl, ?_⟩
          cases type with
          | arg =>
            apply (parseNonOption_returns helem).mono
            intro _ s' _ hs'
            exact hdone hn hs'
          | quote =>
            apply (parseQuote_returns hlast helem).mono
            intro _ s' _ hs'
            exact hdone hn hs'
          | longOption opt =>
            apply (parseLong_returns hin.2 hin.1 helem).mono
            intro _ s' _ hs'
            exact hdone hn hs'
          | longOnlyOption opt =>
            apply (parseLong_returns hin.2 hin.1 helem).mono
            intro _ s' _ hs'
            exact hdone hn hs'
          | shortOption first rest =>
            show Returns (modify _ >>= fun _ => pure 0) s _
            rw [returns_modify_bind, Faulting.returns_pure]
            intro _
            exact eq_false_of_ne_true hargs

end MuslBsd.Argp
