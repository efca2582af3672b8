import MuslBsd.Argp.Lookup
import MuslBsd.Argp.Protocol

/-! Which rounds of the parsing loop read an options array that is not there, or trip an assertion. -/
namespace MuslBsd.Argp
open MuslBsd.Support
open Faulting (Stops)

variable {π σ α : Type} {E : Env π σ} {s : Parser π σ} {x : Fault}

/-! ### Single steps -/

theorem stops_get_bind {f : Parser π σ → ParserM π σ α} :
    Stops (get >>= f) s x ↔ Stops (f s) s x := Iff.rfl

theorem stops_modify_bind {g : Parser π σ → Parser π σ} {f : Unit → ParserM π σ α} :
    Stops (modify g >>= f) s x ↔ Stops (f ()) (g s) x := Iff.rfl

theorem stops_setEbadkey_bind {b : Bool} {f : Unit → ParserM π σ α} :
    Stops (setEbadkey b >>= f) s x ↔ Stops (f ()) { s with argEbadkey := b } x := Iff.rfl

theorem stops_setNext_bind {next : ℤ} {f : Unit → ParserM π σ α} :
    Stops (setNext next >>= f) s x ↔ Stops (f ()) { s with next := next } x := Iff.rfl

theorem print_run (m : Message) (s : Parser π σ) : ∃ acts, print m s = (.ok (), s, acts) := by
  unfold print get
  rw [Faulting.gets_bind_run]
  split
  · exact ⟨_, rfl⟩
  · exact ⟨_, rfl⟩

/-- `print`, then the end with `EBADKEY`. -/
theorem not_stops_reject (m : Message) : ¬Stops (do
    print m
    setEbadkey false
    pure EBADKEY : ParserM π σ ℤ) s x :=
  (reject_returns m).not_stops

theorem not_stops_groupParse (g : ℕ) (key : Key) (arg : Option CStr) :
    ¬Stops (groupParse E g key arg) s x := (groupParse_returns g key arg).not_stops

theorem not_stops_parserParseArg (val : CStr) : ¬Stops (parserParseArg E val) s x :=
  (parserParseArg_returns val).not_stops

theorem look_eq (g : Parser π σ → Except Fault α) (s : Parser π σ) : look g s = (g s, s, []) := by
  unfold look get
  rw [Faulting.gets_bind_run]
  simp only [id_eq]
  cases g s with
  | error e => rfl
  | ok a => rfl

theorem stops_look_bind {β : Type} {g : Parser π σ → Except Fault α} {f : α → ParserM π σ β} :
    Stops (look g >>= f) s x ↔ g s = .error x ∨ ∃ a, g s = .ok a ∧ Stops (f a) s x := by
  have hlook : Stops (look g) s x ↔ g s = .error x := by
    unfold Stops
    rw [look_eq]
  rw [Faulting.stops_bind, hlook, look_eq]
  constructor
  · intro h
    rcases h with h | ⟨a, s', t, hrun, hf⟩
    · exact .inl h
    · have hg : g s = .ok a := congrArg Prod.fst hrun
      have hs : s = s' := congrArg (fun r => r.2.1) hrun
      rw [← hs] at hf
      exact .inr ⟨a, hg, hf⟩
  · intro h
    rcases h with h | ⟨a, hg, hf⟩
    · exact .inl h
    · rw [hg]
      exact .inr ⟨a, s, [], rfl, hf⟩

theorem argvAt_some {i : ℤ} {arg : CStr} (hi : 0 ≤ i) (harg : s.argv[i.toNat]? = some arg) :
    argvAt i s = (.ok arg, s, []) := by
  unfold argvAt get
  rw [Faulting.gets_bind_run]
  simp only [id_eq, if_pos hi, harg]
  rfl

theorem argvAt_bounds {i : ℤ} (h : 0 ≤ i → s.argv[i.toNat]? = none) :
    argvAt i s = (.error .bounds, s, []) := by
  unfold argvAt get
  rw [Faulting.gets_bind_run]
  simp only [id_eq]
  by_cases hi : 0 ≤ i
  · simp only [if_pos hi, h hi]
    rfl
  · simp only [if_neg hi]
    rfl

/-- Past the bounds of `argv` there is only one fault. -/
theorem stops_argvAt_bind (hx : x ≠ .bounds) {i : ℤ} {f : CStr → ParserM π σ α} :
    Stops (argvAt i >>= f) s x ↔ 0 ≤ i ∧ ∃ arg, s.argv[i.toNat]? = some arg ∧ Stops (f arg) s x := by
  by_cases hin : 0 ≤ i ∧ ∃ arg, s.argv[i.toNat]? = some arg
  · obtain ⟨hi, arg, harg⟩ := hin
    have hrun : Stops (argvAt i >>= f) s x ↔ Stops (f arg) s x := by
      unfold Stops
      rw [Faulting.bind_ok (argvAt_some hi harg)]
    rw [hrun]
    simp [hi, harg]
  · have hnone : 0 ≤ i → s.argv[i.toNat]? = none := by
      intro hi
      cases harg : s.argv[i.toNat]? with
      | none => rfl
      | some arg => exact (hin ⟨hi, arg, harg⟩).elim
    have hrun : ¬Stops (argvAt i >>= f) s x := by
      unfold Stops
      rw [Faulting.bind_error (argvAt_bounds hnone)]
      intro h
      exact hx (Except.error.inj h).symm
    constructor
    · intro h
      exact (hrun h).elim
    · intro h
      obtain ⟨hi, arg, harg, -⟩ := h
      exact (hin ⟨hi, arg, harg⟩).elim

theorem exchange_run (s : Parser π σ) :
    exchange s = (.ok (), s.exchanged, []) ∨ exchange s = (.error .bounds, s, []) := by
  unfold exchange get
  rw [Faulting.gets_bind_run]
  simp only [id_eq]
  split
  · exact .inr rfl
  · exact .inl rfl

/-- The assertion on the skipped arguments holds whenever they can be moved. -/
theorem extendNonopts_run (s : Parser π σ) :
    (∃ s', extendNonopts s = (.ok (), s', []) ∧ s'.lastNonopt = s'.next) ∨
      extendNonopts s = (.error .bounds, s, []) := by
  unfold extendNonopts get
  rw [Faulting.gets_bind_run]
  simp only [id_eq]
  split
  · exact .inl ⟨_, rfl, rfl⟩
  · split
    · rcases exchange_run s with hrun | hrun
      · exact .inl ⟨_, hrun, rfl⟩
      · exact .inr hrun
    · rename_i heq
      exact .inl ⟨s, rfl, not_not.mp heq⟩

/-! ### Parts of a round -/

theorem stops_parseShort (hx : x ≠ .bounds) {c : CChar} {rest : CStr} :
    Stops (parseShort E c rest) s x ↔ (s.argsOnly = true ∧ x = .assertion) ∨
      (s.argsOnly = false ∧ findShortOption s.groups s.numGroups (charToInt c) = .error x) := by
  have hfault : Stops (fail .assertion : ParserM π σ ℤ) s x ↔ x = .assertion := by
    rw [eq_comm]
    exact Faulting.stops_fault
  unfold parseShort
  rw [stops_get_bind, Faulting.stops_ite, hfault, Bool.not_eq_true, stops_modify_bind,
    stops_look_bind]
  apply or_congr_right
  apply and_congr_right
  intro _
  constructor
  · intro h
    rcases h with h | ⟨found, -, h⟩
    · exact h
    · exfalso
      cases found with
      | none => exact not_stops_reject _ h
      | some found =>
        dsimp only at h
        rw [Faulting.stops_ite] at h
        rcases h with ⟨-, h⟩ | ⟨-, h⟩
        · rw [stops_modify_bind, Faulting.stops_ite] at h
          rcases h with ⟨-, h⟩ | ⟨-, h⟩
          · rw [Faulting.stops_ite] at h
            rcases h with ⟨-, h⟩ | ⟨-, h⟩
            · exact not_stops_reject _ h
            · rw [stops_argvAt_bind hx] at h
              obtain ⟨-, _, -, h⟩ := h
              exact not_stops_groupParse _ _ _ h
          · exact not_stops_groupParse _ _ _ h
        · exact not_stops_groupParse _ _ _ h
  · exact .inl

theorem stops_parseLong (hx : x ≠ .bounds) {arg start opt : CStr} :
    Stops (parseLong E arg start opt) s x ↔ findLongOption s.groups s.numGroups opt = .error x := by
  unfold parseLong
  rw [stops_modify_bind, stops_look_bind]
  constructor
  · intro h
    rcases h with h | ⟨found, -, h⟩
    · exact h
    · exfalso
      cases found with
      | inr ambiguous => exact not_stops_reject _ h
      | inl found =>
        dsimp only at h
        rw [Faulting.stops_ite] at h
        rcases h with ⟨-, h⟩ | ⟨-, h⟩
        · exact not_stops_reject _ h
        · rw [Faulting.stops_ite] at h
          rcases h with ⟨-, h⟩ | ⟨-, h⟩
          · rw [stops_get_bind, Faulting.stops_ite] at h
            rcases h with ⟨-, h⟩ | ⟨-, h⟩
            · exact not_stops_reject _ h
            · rw [stops_argvAt_bind hx] at h
              obtain ⟨-, _, -, h⟩ := h
              exact not_stops_groupParse _ _ _ h
          · exact not_stops_groupParse _ _ _ h
  · exact .inl

theorem not_stops_parseNonOption (hx : x ≠ .bounds) {arg : CStr} :
    ¬Stops (parseNonOption E arg) s x := by
  unfold parseNonOption
  rw [stops_get_bind]
  cases s.ordering with
  | permute =>
    dsimp only
    rw [Faulting.stops_bind]
    intro h
    rcases extendNonopts_run s with ⟨s', hrun, hlast⟩ | hrun
    · rcases h with h | ⟨_, _, _, hrun', h⟩
      · unfold Stops at h
        rw [hrun] at h
        cases h
      · cases hrun.symm.trans hrun'
        rw [stops_get_bind, if_neg (not_not.mpr hlast)] at h
        cases h
    · rcases h with h | ⟨_, _, _, hrun', -⟩
      · unfold Stops at h
        rw [hrun] at h
        exact hx (Except.error.inj h).symm
      · cases hrun.symm.trans hrun'
  | requireOrder =>
    dsimp only
    intro h
    cases h
  | returnInOrder =>
    dsimp only
    rw [stops_setEbadkey_bind]
    exact not_stops_parserParseArg arg

theorem not_stops_rewindNonopts (hx : x ≠ .bounds) {f : Unit → ParserM π σ ℤ}
    (hf : ∀ s' : Parser π σ, ¬Stops (f ()) s' x) : ¬Stops (rewindNonopts >>= f) s x := by
  unfold rewindNonopts
  rw [Faulting.stops_bind, Faulting.stops_bind]
  intro h
  rcases h with (h | ⟨_, _, _, -, h⟩) | ⟨_, s', _, -, h⟩
  · rcases exchange_run s with hrun | hrun
    · unfold Stops at h
      rw [hrun] at h
      cases h
    · unfold Stops at h
      rw [hrun] at h
      exact hx (Except.error.inj h).symm
  · cases h
  · exact hf s' h

theorem not_stops_parseQuote (hx : x ≠ .bounds) (hlast : s.lastNonopt ≤ s.next) :
    ¬Stops parseQuote s x := by
  have hno : ¬s.lastNonopt = s.next + 1 := by omega
  unfold parseQuote
  rw [stops_modify_bind, stops_get_bind, if_neg hno, Faulting.stops_ite]
  intro h
  rcases h with ⟨-, h⟩ | ⟨-, h⟩
  · refine not_stops_rewindNonopts hx ?_ h
    intro s' hs'
    cases hs'
  · cases h

/-! ### A round -/

namespace Parser

variable (s : Parser π σ)

/-- The element at `next`, while options are looked for. -/
def AtElement (arg : CStr) : Prop :=
  s.nextchar = none ∧ s.argsOnly = false ∧ s.next < s.argc ∧ 0 ≤ s.next ∧
    s.argv[s.next.toNat]? = some arg

/-- The element at `next` is a long option. -/
def AtLong (opt : CStr) : Prop :=
  ∃ arg, s.AtElement arg ∧
    (classifyArg (Has s.flags ARGP_LONG_ONLY) s.shortOpts arg = .ok (.longOption opt) ∨
      classifyArg (Has s.flags ARGP_LONG_ONLY) s.shortOpts arg = .ok (.longOnlyOption opt))

end Parser

/-- A round stops if and only if its lookup does, or the classification of an element, or if it comes
to a bundle where only arguments are left. -/
theorem stops_parserParseNext (hx : x ≠ .bounds) : Stops (parserParseNext E) s x ↔
    (∃ c rest, (settle s).nextchar = some (c, rest) ∧
      (((settle s).argsOnly = true ∧ x = .assertion) ∨ ((settle s).argsOnly = false ∧
        findShortOption (settle s).groups (settle s).numGroups (charToInt c) = .error x))) ∨
    (∃ arg, (settle s).AtElement arg ∧
      classifyArg (Has (settle s).flags ARGP_LONG_ONLY) (settle s).shortOpts arg = .error x) ∨
    ∃ opt, (settle s).AtLong opt ∧
      findLongOption (settle s).groups (settle s).numGroups opt = .error x := by
  have hlast : (settle s).lastNonopt ≤ (settle s).next := by
    rw [settle_lastNonopt, settle_next]
    exact min_le_right _ _
  unfold parserParseNext
  rw [stops_modify_bind, stops_get_bind]
  generalize settle s = s at hlast
  unfold Parser.AtLong Parser.AtElement
  cases hn : s.nextchar with
  | some bundle =>
    obtain ⟨c, rest⟩ := bundle
    dsimp only
    rw [stops_parseShort hx]
    constructor
    · intro h
      exact .inl ⟨c, rest, rfl, h⟩
    · intro h
      rcases h with ⟨_, _, heq, h⟩ | ⟨_, ⟨hbad, -⟩, -⟩ | ⟨_, ⟨_, ⟨hbad, -⟩, -⟩, -⟩
      · cases heq
        exact h
      · cases hbad
      · cases hbad
  | none =>
    dsimp only
    rw [Faulting.stops_ite, stops_setEbadkey_bind, Faulting.stops_ite, Faulting.stops_ite,
      stops_setEbadkey_bind, Faulting.stops_ite, stops_argvAt_bind hx, stops_argvAt_bind hx]
    constructor
    · intro h
      rcases h with ⟨-, ⟨-, h⟩ | ⟨-, -, _, -, h⟩⟩ | ⟨hargs, ⟨-, ⟨-, h⟩ | ⟨-, h⟩⟩ | ⟨hlt, hnext, arg, harg, h⟩⟩
      · cases h
      · exact (not_stops_parserParseArg _ h).elim
      · exfalso
        refine not_stops_rewindNonopts hx ?_ h
        intro s' hs'
        cases hs'
      · cases h
      · have hat : s.argsOnly = false ∧ s.next < s.argc ∧ 0 ≤ s.next ∧
            s.argv[s.next.toNat]? = some arg :=
          ⟨eq_false_of_ne_true hargs, not_le.mp hlt, hnext, harg⟩
        rw [stops_look_bind] at h
        rcases h with h | ⟨type, htype, h⟩
        · exact .inr (.inl ⟨arg, ⟨rfl, hat⟩, h⟩)
        · cases type with
          | arg => exact (not_stops_parseNonOption hx h).elim
          | quote => exact (not_stops_parseQuote hx hlast h).elim
          | longOption opt =>
            exact .inr (.inr ⟨opt, ⟨arg, ⟨rfl, hat⟩, .inl htype⟩, (stops_parseLong hx).mp h⟩)
          | longOnlyOption opt =>
            exact .inr (.inr ⟨opt, ⟨arg, ⟨rfl, hat⟩, .inr htype⟩, (stops_parseLong hx).mp h⟩)
          | shortOption first rest => cases h
    · intro h
      right
      rcases h with ⟨_, _, hbad, -⟩ | ⟨arg, ⟨-, hargs, hlt, hnext, harg⟩, hc⟩ |
        ⟨opt, ⟨arg, ⟨-, hargs, hlt, hnext, harg⟩, hc⟩, hfind⟩
      · cases hbad
      · refine ⟨by simp [hargs], .inr ⟨not_le.mpr hlt, hnext, arg, harg, ?_⟩⟩
        rw [stops_look_bind]
        exact .inl hc
      · refine ⟨by simp [hargs], .inr ⟨not_le.mpr hlt, hnext, arg, harg, ?_⟩⟩
        rw [stops_look_bind]
        rcases hc with hc | hc
        · exact .inr ⟨_, hc, (stops_parseLong hx).mpr hfind⟩
        · exact .inr ⟨_, hc, (stops_parseLong hx).mpr hfind⟩

/-! ### Bundles -/

section

open Faulting (Follows Sequential)

variable {γ : Type} {f : Parser π σ → γ}

/-- A part of the state is left as it is. -/
def Keeping (f : Parser π σ → γ) (s : Parser π σ) (_ : List Act) (s' : Parser π σ) : Prop := f s' = f s

theorem keeping_sequential : Sequential (Keeping f) := ⟨fun _ => rfl, fun h h' => h'.trans h⟩

/-- A part that no callback can reach, and that is no matter of `state->next`. -/
structure Apart (f : Parser π σ → γ) : Prop where
  framed : ∀ s s', Framed s s' → f s' = f s
  ebadkey : ∀ s b, f { s with argEbadkey := b } = f s
  next : ∀ s next, f { s with next := next } = f s

theorem keeping_bind {α β : Type} {m : ParserM π σ α} {k : α → ParserM π σ β}
    (h : Follows (Keeping f) m) (hk : ∀ a, Follows (Keeping f) (k a)) :
    Follows (Keeping f) (m >>= k) := .bind keeping_sequential h hk

theorem keeping_pure {α : Type} (a : α) : Follows (Keeping f) (pure a : ParserM π σ α) :=
  .pure keeping_sequential a

theorem keeping_fail {α : Type} (x : Fault) : Follows (Keeping f) (fail x : ParserM π σ α) :=
  .stop keeping_sequential x

theorem keeping_get : Follows (Keeping f) get := .gets keeping_sequential id

theorem keeping_modify {g : Parser π σ → Parser π σ} (h : ∀ s, f (g s) = f s) :
    Follows (Keeping f) (modify g) := h

theorem keeping_look {α : Type} (g : Parser π σ → Except Fault α) : Follows (Keeping f) (look g) := by
  intro s
  rw [look_eq]
  rfl

theorem keeping_print (m : Message) : Follows (Keeping f) (print m) := by
  intro s
  obtain ⟨acts, hrun⟩ := print_run m s
  rw [hrun]
  rfl

theorem keeping_argvAt (i : ℤ) : Follows (Keeping f) (argvAt i) := by
  intro s
  by_cases hin : 0 ≤ i → s.argv[i.toNat]? = none
  · rw [argvAt_bounds hin]
    rfl
  · push Not at hin
    obtain ⟨hi, hsome⟩ := hin
    obtain ⟨arg, harg⟩ := Option.ne_none_iff_exists'.mp hsome
    rw [argvAt_some hi harg]
    rfl

namespace Apart

variable (hf : Apart f)

include hf

theorem setEbadkey (b : Bool) : Follows (Keeping f) (setEbadkey b) := fun s => hf.ebadkey s b

theorem setNext (next : ℤ) : Follows (Keeping f) (setNext next) := fun s => hf.next s next

theorem groupParse (g : ℕ) (key : Key) (arg : Option CStr) :
    Follows (Keeping f) (groupParse E g key arg) := by
  intro s
  obtain ⟨err, s', acts, hrun, hcalled⟩ := groupParse_run E g key arg s
  rw [hrun]
  exact hf.framed s s' hcalled.framed

theorem reject (m : Message) : Follows (Keeping f) (do
    print m
    Argp.setEbadkey false
    pure EBADKEY : ParserM π σ ℤ) :=
  keeping_bind (keeping_print m) fun _ => keeping_bind (hf.setEbadkey false) fun _ => keeping_pure _

theorem parseShort (hchar : ∀ s bundle, f { s with nextchar := bundle } = f s) (c : CChar)
    (rest : CStr) : Follows (Keeping f) (parseShort E c rest) := by
  unfold Argp.parseShort
  apply keeping_bind keeping_get
  intro s
  apply Follows.ite
  · intro _
    exact keeping_fail _
  intro _
  apply keeping_bind (keeping_modify fun s => hchar s _)
  intro _
  apply keeping_bind (keeping_look _)
  intro found
  cases found with
  | none => exact hf.reject _
  | some found =>
    apply Follows.ite
    · intro _
      apply keeping_bind (keeping_modify fun s => hchar s _)
      intro _
      apply Follows.ite
      · intro _
        apply Follows.ite
        · intro _
          exact hf.reject _
        · intro _
          apply keeping_bind (keeping_argvAt _)
          intro value
          apply keeping_bind (hf.setNext _)
          intro _
          exact hf.groupParse _ _ _
      · intro _
        exact hf.groupParse _ _ _
    · intro _
      exact hf.groupParse _ _ _

theorem parseLong (arg start opt : CStr) : Follows (Keeping f) (parseLong E arg start opt) := by
  unfold Argp.parseLong
  apply keeping_bind (keeping_modify fun s => hf.next s _)
  intro _
  apply keeping_bind (keeping_look _)
  intro found
  cases found with
  | inr ambiguous => exact hf.reject _
  | inl found =>
    apply Follows.ite
    · intro _
      exact hf.reject _
    · intro _
      apply Follows.ite
      · intro _
        apply keeping_bind keeping_get
        intro s
        apply Follows.ite
        · intro _
          exact hf.reject _
        · intro _
          apply keeping_bind (keeping_argvAt _)
          intro value
          apply keeping_bind (hf.setNext _)
          intro _
          apply keeping_bind (hf.setEbadkey _)
          intro _
          exact hf.groupParse _ _ _
      · intro _
        apply keeping_bind (hf.setEbadkey _)
        intro _
        exact hf.groupParse _ _ _

end Apart

theorem apart_argsOnly : Apart (Parser.argsOnly : Parser π σ → Bool) :=
  ⟨fun _ _ h => h.argsOnly, fun _ _ => rfl, fun _ _ => rfl⟩

theorem apart_nextchar : Apart (Parser.nextchar : Parser π σ → Option (CChar × CStr)) :=
  ⟨fun _ _ h => h.nextchar, fun _ _ => rfl, fun _ _ => rfl⟩

theorem keeping_exchange : Follows (Keeping (Parser.nextchar : Parser π σ → _)) exchange := by
  intro s
  rcases exchange_run s with hrun | hrun
  · rw [hrun]
    rfl
  · rw [hrun]
    rfl

theorem keeping_rewindNonopts :
    Follows (Keeping (Parser.nextchar : Parser π σ → _)) rewindNonopts := by
  unfold rewindNonopts
  apply keeping_bind keeping_exchange
  intro _
  exact keeping_modify fun _ => rfl

theorem keeping_parserParseArg (val : CStr) :
    Follows (Keeping (Parser.nextchar : Parser π σ → _)) (parserParseArg E val) := by
  intro s
  obtain ⟨err, s', acts, hrun, hchar⟩ := parserParseArg_returns (E := E) (s := s) val
  rw [hrun]
  exact hchar

theorem keeping_parseNonOption (arg : CStr) :
    Follows (Keeping (Parser.nextchar : Parser π σ → _)) (parseNonOption E arg) := by
  unfold parseNonOption
  apply keeping_bind keeping_get
  intro s
  cases s.ordering with
  | permute =>
    have hextend : Follows (Keeping (Parser.nextchar : Parser π σ → _)) extendNonopts := by
      unfold extendNonopts
      apply keeping_bind keeping_get
      intro s
      apply Follows.ite
      · intro _
        exact keeping_modify fun _ => rfl
      · intro _
        apply Follows.ite
        · intro _
          exact keeping_exchange
        · intro _
          exact keeping_pure _
    apply keeping_bind hextend
    intro _
    apply keeping_bind keeping_get
    intro s
    apply Follows.ite
    · intro _
      exact keeping_fail _
    · intro _
      exact keeping_bind (keeping_modify fun _ => rfl) fun _ => keeping_pure _
  | requireOrder => exact keeping_bind (keeping_modify fun _ => rfl) fun _ => keeping_pure _
  | returnInOrder =>
    apply keeping_bind (apart_nextchar.setEbadkey true)
    intro _
    exact keeping_parserParseArg arg

theorem keeping_parseQuote : Follows (Keeping (Parser.nextchar : Parser π σ → _)) parseQuote := by
  unfold parseQuote
  refine keeping_bind (keeping_modify ?_) ?_
  · intro _
    rfl
  intro _
  apply keeping_bind keeping_get
  intro s
  apply Follows.ite
  · intro _
    exact keeping_fail _
  · intro _
    apply Follows.ite
    · intro _
      apply keeping_bind keeping_rewindNonopts
      intro _
      exact keeping_bind (keeping_modify fun _ => rfl) fun _ => keeping_pure _
    · intro _
      exact keeping_bind (keeping_modify fun _ => rfl) fun _ => keeping_pure _

/-- A round that returns leaves a state in which a bundle means that options are looked for. -/
theorem round_bundled {err : ℤ} {s' : Parser π σ} {acts : List Act} (hb : s.Bundled)
    (h : parserParseNext E s = (.ok err, s', acts)) : s'.Bundled := by
  have hb' := hb.settle
  unfold parserParseNext modify get at h
  rw [Faulting.modify_bind_run, Faulting.gets_bind_run] at h
  simp only [id_eq] at h
  generalize settle s = s at hb' h
  have hkept : ∀ {m : ParserM π σ ℤ}, s.nextchar = none →
      Follows (Keeping (Parser.nextchar : Parser π σ → _)) m → m s = (.ok err, s', acts) →
      s'.Bundled := by
    intro m hnone hm hrun hsome
    have hkeep := hm s
    rw [hrun] at hkeep
    have hchar : s'.nextchar = s.nextchar := hkeep
    rw [hchar, hnone] at hsome
    cases hsome
  cases hn : s.nextchar with
  | some bundle =>
    obtain ⟨c, rest⟩ := bundle
    rw [hn] at h
    change parseShort E c rest s = _ at h
    have hkeep := apart_argsOnly.parseShort (E := E) (fun _ _ => rfl) c rest s
    rw [h] at hkeep
    have hargs : s'.argsOnly = s.argsOnly := hkeep
    intro _
    rw [hargs]
    exact hb' (by rw [hn]; rfl)
  | none =>
    rw [hn] at h
    dsimp only at h
    by_cases hargs : s.argsOnly
    · rw [if_pos hargs] at h
      refine hkept hn ?_ h
      apply keeping_bind (apart_nextchar.setEbadkey true)
      intro _
      apply Follows.ite
      · intro _
        exact keeping_pure _
      · intro _
        apply keeping_bind (keeping_argvAt _)
        intro arg
        exact keeping_parserParseArg arg
    · rw [if_neg hargs] at h
      by_cases hle : s.argc ≤ s.next
      · rw [if_pos hle] at h
        refine hkept hn ?_ h
        apply keeping_bind (apart_nextchar.setEbadkey true)
        intro _
        apply Follows.ite
        · intro _
          apply keeping_bind keeping_rewindNonopts
          intro _
          exact keeping_bind (keeping_modify fun _ => rfl) fun _ => keeping_pure _
        · intro _
          exact keeping_pure _
      · rw [if_neg hle] at h
        by_cases hin : 0 ≤ s.next → s.argv[s.next.toNat]? = none
        · rw [Faulting.bind_error (argvAt_bounds hin)] at h
          cases h
        · push Not at hin
          obtain ⟨hi, hsome⟩ := hin
          obtain ⟨arg, harg⟩ := Option.ne_none_iff_exists'.mp hsome
          rw [Faulting.bind_ok (argvAt_some hi harg)] at h
          have hlook := look_eq (fun s : Parser π σ =>
            classifyArg (Has s.flags ARGP_LONG_ONLY) s.shortOpts arg) s
          cases hc : classifyArg (Has s.flags ARGP_LONG_ONLY) s.shortOpts arg with
          | error e =>
            rw [hc] at hlook
            rw [Faulting.bind_error hlook] at h
            cases h
          | ok type =>
            rw [hc] at hlook
            rw [Faulting.bind_ok hlook] at h
            have hrun : ∀ {run : Except Fault ℤ × Parser π σ × List Act},
                (run.1, run.2.1, [] ++ ([] ++ run.2.2)) = ((.ok err : Except Fault ℤ), s', acts) →
                run = (.ok err, s', acts) := fun heq => heq
            cases type with
            | arg => exact hkept hn (keeping_parseNonOption arg) (hrun h)
            | quote => exact hkept hn keeping_parseQuote (hrun h)
            | longOption opt => exact hkept hn (apart_nextchar.parseLong _ _ _) (hrun h)
            | longOnlyOption opt => exact hkept hn (apart_nextchar.parseLong _ _ _) (hrun h)
            | shortOption first rest =>
              cases h
              intro _
              exact eq_false_of_ne_true hargs

theorem Visits.bundled {s' : Parser π σ} (h : Visits E s s') (hb : s.Bundled) : s'.Bundled := by
  induction h with
  | here s => exact hb
  | next run rest ih => exact ih (round_bundled hb run)

end

/-! ### Whole parses -/

/-- The loop stops if and only if some round does; by induction on the rounds. -/
theorem stops_parserLoop (hx : x ≠ .endless) : (∃ fuel, Stops (parserLoop E fuel) s x) ↔
    ∃ s', Visits E s s' ∧ Stops (parserParseNext E) s' x := by
  constructor
  · intro h
    obtain ⟨fuel, h⟩ := h
    induction fuel generalizing s with
    | zero => exact (hx (Except.error.inj h).symm).elim
    | succ fuel ih =>
      unfold parserLoop at h
      rw [Faulting.stops_bind] at h
      rcases h with h | ⟨err, s₁, acts, hrun, h⟩
      · exact ⟨s, .here s, h⟩
      · rw [Faulting.stops_ite] at h
        rcases h with ⟨rfl, h⟩ | ⟨-, h⟩
        · obtain ⟨s', hvisits, hstops⟩ := ih h
          exact ⟨s', .next hrun hvisits, hstops⟩
        · cases h
  · intro h
    obtain ⟨s', hvisits, hstops⟩ := h
    induction hvisits with
    | here s =>
      refine ⟨1, ?_⟩
      unfold parserLoop
      rw [Faulting.stops_bind]
      exact .inl hstops
    | @next s s₁ s' acts run rest ih =>
      obtain ⟨fuel, hfuel⟩ := ih hstops
      refine ⟨fuel + 1, ?_⟩
      unfold parserLoop
      rw [Faulting.stops_bind]
      refine .inr ⟨0, s₁, acts, run, ?_⟩
      rw [if_pos rfl]
      exact hfuel

theorem not_stops_initGroups (gs : List ℕ) (err : ℤ) : ¬Stops (initGroups E gs err) s x := by
  induction gs generalizing s err with
  | nil =>
    intro h
    cases h
  | cons g gs ih =>
    unfold initGroups
    rw [Faulting.stops_ite]
    intro h
    rcases h with ⟨-, h⟩ | ⟨-, h⟩
    · rw [Faulting.stops_bind] at h
      rcases h with h | ⟨_, _, _, -, h⟩
      · obtain ⟨_, _, _, hrun, -⟩ := init_run E g s
        unfold Stops at h
        rw [hrun] at h
        cases h
      · exact ih _ h
    · cases h

theorem not_stops_initParsers (argv : List CStr) : ¬Stops (initParsers E argv) s x := by
  unfold initParsers
  rw [stops_get_bind, Faulting.stops_bind]
  intro h
  rcases h with h | ⟨_, _, _, -, h⟩
  · exact not_stops_initGroups _ _ h
  · rw [Faulting.stops_ite] at h
    rcases h with ⟨-, h⟩ | ⟨-, h⟩
    · cases h
    · cases h

theorem not_stops_parserFinalize (hx : x ≠ .exit) (err : ℤ) (endIndex : Bool) :
    ¬Stops (parserFinalize E err endIndex) s x := by
  intro h
  unfold Stops at h
  rcases parserFinalize_run E err endIndex s with ⟨_, _, _, _, hrun, -⟩ |
    ⟨_, _, _, _, _, _, _, _, hrun, -⟩
  · rw [hrun] at h
    exact hx (Except.error.inj h).symm
  · rw [hrun] at h
    cases h

variable {defaults : Defaults π} {argp : Option (Argp π)} {start : Start σ} {endIndex : Bool}

/-- In `s` a parse calls `parser_parse_next`. -/
def InLoop (E : Env π σ) (defaults : Defaults π) (argp : Option (Argp π)) (start : Start σ)
    (s : Parser π σ) : Prop :=
  E.malloc ∧ ∃ cvt s₀ acts₀,
    parserConvert (Has start.flags ARGP_LONG_ONLY) (topArgp defaults argp start.flags) = .ok cvt ∧
    initParsers E start.argv (setUp E cvt start) = (.ok 0, s₀, acts₀) ∧ Visits E s₀ s

/-- A parse stops with such a fault if and only if `parser_convert` does, or some round. -/
theorem argpParse_stops (hend : x ≠ .endless) (hexit : x ≠ .exit) :
    (∃ fuel, (argpParse E defaults fuel argp start endIndex).result = .error x) ↔
      (E.malloc ∧ parserConvert (Has start.flags ARGP_LONG_ONLY)
        (topArgp defaults argp start.flags) = .error x) ∨
      ∃ s, InLoop E defaults argp start s ∧ Stops (parserParseNext E) s x := by
  unfold InLoop argpParse
  by_cases hmalloc : E.malloc
  · cases hconvert : parserConvert (Has start.flags ARGP_LONG_ONLY)
      (topArgp defaults argp start.flags) with
    | error e =>
      simp only [hmalloc, if_true, true_and, exists_const]
      constructor
      · intro h
        exact .inl (congrArg Except.error (Except.error.inj h))
      · intro h
        rcases h with h | ⟨s, ⟨cvt, s₀, acts₀, hbad, -⟩, -⟩
        · exact congrArg Except.error (Except.error.inj h)
        · cases hbad
    | ok cvt =>
      simp only [hmalloc, if_true, true_and]
      have hparse : ∀ fuel, Stops (parse E fuel start.argv endIndex) (setUp E cvt start) x ↔
          ∃ s₀ acts₀, initParsers E start.argv (setUp E cvt start) = (.ok 0, s₀, acts₀) ∧
            Stops (parserLoop E fuel) s₀ x := by
        intro fuel
        unfold parse
        rw [Faulting.stops_bind]
        constructor
        · intro h
          rcases h with h | ⟨err, s₀, acts₀, hrun, h⟩
          · exact (not_stops_initParsers _ h).elim
          · rw [Faulting.stops_ite] at h
            rcases h with ⟨rfl, h⟩ | ⟨-, h⟩
            · rw [Faulting.stops_bind] at h
              rcases h with h | ⟨_, _, _, -, h⟩
              · exact ⟨s₀, acts₀, hrun, h⟩
              · exact (not_stops_parserFinalize hexit _ _ h).elim
            · cases h
        · intro h
          obtain ⟨s₀, acts₀, hrun, h⟩ := h
          refine .inr ⟨0, s₀, acts₀, hrun, ?_⟩
          rw [if_pos rfl, Faulting.stops_bind]
          exact .inl h
      constructor
      · intro h
        obtain ⟨fuel, h⟩ := h
        obtain ⟨s₀, acts₀, hrun, hloop⟩ := (hparse fuel).mp h
        obtain ⟨s, hvisits, hstops⟩ := (stops_parserLoop hend).mp ⟨fuel, hloop⟩
        exact .inr ⟨s, ⟨cvt, s₀, acts₀, rfl, hrun, hvisits⟩, hstops⟩
      · intro h
        rcases h with hbad | ⟨s, ⟨cvt', s₀, acts₀, hcvt, hrun, hvisits⟩, hstops⟩
        · cases hbad
        · cases hcvt
          obtain ⟨fuel, hloop⟩ := (stops_parserLoop hend).mpr ⟨s, hvisits, hstops⟩
          exact ⟨fuel, (hparse fuel).mpr ⟨s₀, acts₀, hrun, hloop⟩⟩
  · simp [hmalloc]

/-! ### NULL arrays -/

theorem charToInt_range (c : CChar) : (0 ≤ charToInt c ∧ charToInt c < 128) ↔ c.val.toNat < 128 := by
  have hlt := c.val.toNat_lt
  unfold charToInt
  rw [Int.bmod_def]
  split
  · omega
  · omega

theorem classifyArg_error {longOnly : Bool} {shortOpts : Option (List ℤ)} {arg : CStr} {e : Fault} :
    classifyArg longOnly shortOpts arg = .error e ↔ e = .assertion ∧ longOnly = true ∧
      shortOpts = none ∧ ∃ d opt, arg = dash :: d :: opt ∧ d ≠ dash := by
  constructor
  · intro h
    unfold classifyArg at h
    cases arg with
    | nil => cases h
    | cons c arg =>
      dsimp only at h
      split at h
      · rename_i hc
        cases arg with
        | nil => cases h
        | cons d opt =>
          dsimp only at h
          split at h
          · split at h
            · cases h
            · cases h
          · rename_i hd
            split at h
            · rename_i hlong
              cases shortOpts with
              | none =>
                cases h
                exact ⟨rfl, hlong, rfl, d, opt, by rw [hc], hd⟩
              | some keys =>
                dsimp only at h
                split at h
                · cases h
                · cases h
            · cases h
      · cases h
  · intro h
    obtain ⟨rfl, rfl, rfl, d, opt, rfl, hd⟩ := h
    unfold classifyArg
    dsimp only
    rw [if_pos rfl, if_neg hd, if_pos rfl]

theorem findShortOption_null (groups : ℕ → Group π) (n : ℕ) (c : CChar) :
    findShortOption groups n (charToInt c) = .error .nullOptions ↔
      c.val.toNat < 128 ∧ ComesToNull groups n (Entry.HasKey (charToInt c)) := by
  rw [← charToInt_range]
  by_cases hkey : 0 ≤ charToInt c ∧ charToInt c < 128
  · obtain ⟨hnull, hfound⟩ := findShortOption_eq groups n hkey
    simp only [hkey, and_self, true_and]
    constructor
    · intro h
      by_contra hno
      rw [hfound hno] at h
      cases h
    · exact hnull
  · have hrun : findShortOption groups n (charToInt c) = .error .assertion := by
      unfold findShortOption
      rw [if_neg hkey]
    rw [hrun]
    simp [hkey]

theorem findShortOption_assertion (groups : ℕ → Group π) (n : ℕ) (c : CChar) :
    findShortOption groups n (charToInt c) = .error .assertion ↔ 128 ≤ c.val.toNat := by
  rw [← not_lt, ← charToInt_range]
  by_cases hkey : 0 ≤ charToInt c ∧ charToInt c < 128
  · obtain ⟨hnull, hfound⟩ := findShortOption_eq groups n hkey
    by_cases hcomes : ComesToNull groups n (Entry.HasKey (charToInt c))
    · rw [hnull hcomes]
      simp [hkey]
    · rw [hfound hcomes]
      simp [hkey]
  · have hrun : findShortOption groups n (charToInt c) = .error .assertion := by
      unfold findShortOption
      rw [if_neg hkey]
    rw [hrun]
    simp [hkey]

theorem findLongOption_error (groups : ℕ → Group π) (n : ℕ) (opt : CStr) (e : Fault) :
    findLongOption groups n opt = .error e ↔
      e = .nullOptions ∧ ComesToNull groups n (Entry.Exact · opt) := by
  obtain ⟨hnull, hfound⟩ := findLongOption_eq groups n opt
  by_cases hcomes : ComesToNull groups n (Entry.Exact · opt)
  · rw [hnull hcomes]
    simp [hcomes, eq_comm]
  · rw [hfound hcomes]
    simp [hcomes]

/-- `convert_options` reads an array that is not there if it records short options. -/
theorem convertOptions_null (longOnly : Bool) (argp : Argp π) :
    (longOnly = true ∧ none ∈ treeArrays (some argp) ∧
      convertOptions longOnly argp none 0 ⟨[], [], 0⟩ = .error .nullOptions) ∨
    (¬(longOnly = true ∧ none ∈ treeArrays (some argp)) ∧
      ∃ cvt, convertOptions longOnly argp none 0 ⟨[], [], 0⟩ = .ok cvt) := by
  obtain ⟨m, hadds⟩ := treeGroups_adds argp
  have hmem : none ∈ treeArrays (some argp) ↔
      ¬∀ group ∈ treeGroups (some argp), group.options ≠ none := by
    rw [← treeGroups_options, List.mem_map]
    push Not
    rfl
  generalize treeGroups (some argp) = added at hadds hmem
  have hplain : convertOptions false argp none 0 ⟨[], [], 0⟩ = .ok ⟨added, [], 0 + m⟩ :=
    hadds.plain [] 0
  rw [hmem]
  cases longOnly with
  | false => exact .inr ⟨fun h => Bool.false_ne_true h.1, _, hplain⟩
  | true =>
    by_cases hall : ∀ group ∈ added, group.options ≠ none
    · exact .inr ⟨fun h => h.2 hall, _, hadds.recorded [] 0 hall⟩
    · exact .inl ⟨rfl, hall, hadds.null [] 0 hall⟩

theorem parserConvert_null (longOnly : Bool) (argp : Option (Argp π)) :
    parserConvert longOnly argp = .error .nullOptions ↔ longOnly = true ∧ none ∈ treeArrays argp := by
  cases argp with
  | none =>
    unfold parserConvert treeArrays
    simp
  | some argp =>
    unfold parserConvert
    dsimp only
    rcases convertOptions_null longOnly argp with ⟨hlong, hmem, hrun⟩ | ⟨hno, cvt, hrun⟩
    · rw [hrun]
      exact ⟨fun _ => ⟨hlong, hmem⟩, fun _ => rfl⟩
    · rw [hrun]
      refine ⟨fun h => ?_, fun h => (hno h).elim⟩
      change (if _ then _ else _) = _ at h
      split at h
      · cases h
      · cases h

theorem parserConvert_assertion (longOnly : Bool) (argp : Option (Argp π)) :
    parserConvert longOnly argp ≠ .error .assertion := by
  intro h
  cases argp with
  | none => cases h
  | some argp =>
    unfold parserConvert at h
    dsimp only at h
    rcases convertOptions_null longOnly argp with ⟨-, -, hrun⟩ | ⟨-, cvt, hrun⟩
    · rw [hrun] at h
      cases h
    · rw [hrun] at h
      change (if _ then _ else _) = _ at h
      split at h
      · cases h
      · cases h

/-- The next lookup comes to an options array that is not there. -/
def Parser.LooksInNull (s : Parser π σ) : Prop :=
  (∃ c rest, s.nextchar = some (c, rest) ∧ c.val.toNat < 128 ∧
    ComesToNull s.groups s.numGroups (Entry.HasKey (charToInt c))) ∨
  ∃ opt, s.AtLong opt ∧ ComesToNull s.groups s.numGroups (Entry.Exact · opt)

theorem InLoop.bundled (h : InLoop E defaults argp start s) : s.Bundled := by
  obtain ⟨-, cvt, s₀, acts₀, hconvert, hinit, hvisits⟩ := h
  have hstarted := initParsers_run (parserConvert_made hconvert) hinit
  apply hvisits.bundled
  intro hsome
  rw [hstarted.nextchar] at hsome
  cases hsome

theorem stops_null (hb : s.Bundled) :
    Stops (parserParseNext E) s .nullOptions ↔ (settle s).LooksInNull := by
  have hb' := hb.settle
  rw [stops_parserParseNext (by decide)]
  unfold Parser.LooksInNull
  constructor
  · intro h
    rcases h with ⟨c, rest, hchar, ⟨-, hbad⟩ | ⟨-, h⟩⟩ | ⟨arg, -, h⟩ | ⟨opt, hopt, h⟩
    · cases hbad
    · exact .inl ⟨c, rest, hchar, (findShortOption_null _ _ c).mp h⟩
    · cases (classifyArg_error.mp h).1
    · exact .inr ⟨opt, hopt, ((findLongOption_error _ _ opt _).mp h).2⟩
  · intro h
    rcases h with ⟨c, rest, hchar, h⟩ | ⟨opt, hopt, h⟩
    · have hargs := hb' (by rw [hchar]; rfl)
      exact .inl ⟨c, rest, hchar, .inr ⟨hargs, (findShortOption_null _ _ c).mpr h⟩⟩
    · exact .inr (.inr ⟨opt, hopt, (findLongOption_error _ _ opt _).mpr ⟨rfl, h⟩⟩)

/-- A parse never reads an options array that is not there, if and only if under `ARGP_LONG_ONLY`
there is none missing, and no lookup of the loop comes to a missing one. -/
theorem never_null_iff (E : Env π σ) (defaults : Defaults π) (argp : Option (Argp π))
    (start : Start σ) (endIndex : Bool) :
    (∀ fuel, (argpParse E defaults fuel argp start endIndex).result ≠ .error .nullOptions) ↔
      (E.malloc → Has start.flags ARGP_LONG_ONLY →
        none ∉ treeArrays (topArgp defaults argp start.flags)) ∧
      ∀ s, InLoop E defaults argp start s → ¬(settle s).LooksInNull := by
  rw [← not_exists_not]
  simp only [ne_eq, not_not]
  rw [argpParse_stops (by decide) (by decide), parserConvert_null, not_or, not_exists,
    decide_eq_true_iff]
  apply and_congr
  · tauto
  · apply forall_congr'
    intro s
    rw [not_and]
    apply imp_congr_right
    intro hs
    rw [stops_null hs.bundled]

/-- `prog -a x` with one argp that has a parser and no options. -/
theorem bareArgp_null :
    (argpParse acceptAll noDefaults 10 (some bareArgp) startA false).result = .error .nullOptions := rfl

/-! ### Assertions -/

/-- The next round trips an assertion: a short option is no ASCII character, or `ARGP_LONG_ONLY` has
been switched on in a parse that has no string of short options. -/
def Parser.Trips (s : Parser π σ) : Prop :=
  (∃ c rest, s.nextchar = some (c, rest) ∧ 128 ≤ c.val.toNat) ∨
  (Has s.flags ARGP_LONG_ONLY ∧ s.shortOpts = none ∧
    ∃ d opt, s.AtElement (dash :: d :: opt) ∧ d ≠ dash)

theorem stops_assertion (hb : s.Bundled) :
    Stops (parserParseNext E) s .assertion ↔ (settle s).Trips := by
  have hb' := hb.settle
  rw [stops_parserParseNext (by decide)]
  unfold Parser.Trips
  constructor
  · intro h
    rcases h with ⟨c, rest, hchar, ⟨hbad, -⟩ | ⟨-, h⟩⟩ | ⟨arg, harg, h⟩ | ⟨opt, -, h⟩
    · have hargs := hb' (by rw [hchar]; rfl)
      rw [hargs] at hbad
      cases hbad
    · exact .inl ⟨c, rest, hchar, (findShortOption_assertion _ _ c).mp h⟩
    · obtain ⟨-, hlong, hnone, d, opt, rfl, hd⟩ := classifyArg_error.mp h
      exact .inr ⟨of_decide_eq_true hlong, hnone, d, opt, harg, hd⟩
    · cases ((findLongOption_error _ _ opt _).mp h).1
  · intro h
    rcases h with ⟨c, rest, hchar, h⟩ | ⟨hlong, hnone, d, opt, harg, hd⟩
    · have hargs := hb' (by rw [hchar]; rfl)
      exact .inl ⟨c, rest, hchar, .inr ⟨hargs, (findShortOption_assertion _ _ c).mpr h⟩⟩
    · exact .inr (.inl ⟨_, harg,
        classifyArg_error.mpr ⟨rfl, decide_eq_true hlong, hnone, d, opt, rfl, hd⟩⟩)

/-- No assertion fails, if and only if every short option that the loop comes to is an ASCII
character, and `ARGP_LONG_ONLY` is not on in a parse that has started without it. -/
theorem never_asserts_iff (E : Env π σ) (defaults : Defaults π) (argp : Option (Argp π))
    (start : Start σ) (endIndex : Bool) :
    (∀ fuel, (argpParse E defaults fuel argp start endIndex).result ≠ .error .assertion) ↔
      ∀ s, InLoop E defaults argp start s → ¬(settle s).Trips := by
  have hconvert := parserConvert_assertion (decide (Has start.flags ARGP_LONG_ONLY))
    (topArgp defaults argp start.flags)
  rw [← not_exists_not]
  simp only [ne_eq, not_not]
  rw [argpParse_stops (by decide) (by decide), not_or, not_exists]
  constructor
  · intro h s hs
    rw [← stops_assertion hs.bundled]
    exact fun hstops => h.2 s ⟨hs, hstops⟩
  · intro h
    refine ⟨fun hbad => hconvert hbad.2, fun s hs => ?_⟩
    rw [stops_assertion hs.1.bundled] at hs
    exact h s hs.1 hs.2

/-- `prog -\xFF`: the character is negative. -/
def startByte : Start Unit where
  argv := [[letterP], [dash, ⟨255, by decide⟩]]
  flags := ARGP_NO_HELP ||| ARGP_NO_EXIT
  input := 0
  world := ()

theorem startByte_asserts :
    (argpParse acceptAll noDefaults 10 (some argpA) startByte false).result = .error .assertion := rfl

end MuslBsd.Argp
