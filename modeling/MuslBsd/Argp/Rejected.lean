import MuslBsd.Argp.Alias

/-! Options that are rejected, and what comes of it at the end of the parse. -/
namespace MuslBsd.Argp
open MuslBsd.Support

variable {π σ : Type} {E : Env π σ} {s : Parser π σ}

/-! ### Why an option is rejected -/

/-- What an option is handed with, and the `next` after it, if this much is attached to it. -/
inductive Takes (s : Parser π σ) (o : ArgpOption) : Option CStr → Option CStr → ℤ → Prop
  | flag (attached : Option CStr) (req : o.requirement = .none) : Takes s o attached none s.next
  | attached (value : CStr) (req : o.requirement ≠ .none) : Takes s o (some value) (some value) s.next
  | omitted (req : o.requirement = .optional) : Takes s o none none s.next
  | separate {value : CStr} (req : o.requirement = .mandatory) (more : s.next ≠ s.argc)
      (low : 0 ≤ s.next) (elem : s.argv[s.next.toNat]? = some value) :
      Takes s o none (some value) (s.next + 1)

/-- The parser of the group does not know the key, or there is none. -/
def Refuses (E : Env π σ) (g : ℕ) (key : ℤ) (value : Option CStr) (s : Parser π σ) : Prop :=
  (groupParse E g (.option key) value s).1 = .ok EBADKEY

/-- What is attached to a short option. -/
def attachedTo (rest : CStr) : Option CStr := if rest = [] then none else some rest

/-- The state in which the parser of a short option is called. -/
def Parser.afterShort (s : Parser π σ) (rest : CStr) (o : ArgpOption) (next : ℤ) : Parser π σ :=
  { s with nextchar := if o.requirement = .none then bundle rest else none, next := next }

/-- The next round finds an option in `argv` that it rejects. -/
inductive Rejected (E : Env π σ) (s : Parser π σ) : Prop
  | unknownShort {c : CChar} {rest : CStr} (here : s.nextchar = some (c, rest))
      (unknown : findShortOption s.groups s.numGroups (charToInt c) = .ok none)
  | missingShort {c : CChar} {g : ℕ} {o : ArgpOption} (here : s.nextchar = some (c, []))
      (found : findShortOption s.groups s.numGroups (charToInt c) = .ok (some (g, o)))
      (req : o.requirement = .mandatory) (last : s.next = s.argc)
  | refusedShort {c : CChar} {rest : CStr} {g : ℕ} {o : ArgpOption} {value : Option CStr} {next : ℤ}
      (here : s.nextchar = some (c, rest))
      (found : findShortOption s.groups s.numGroups (charToInt c) = .ok (some (g, o)))
      (takes : Takes s o (attachedTo rest) value next)
      (refused : Refuses E g o.key value (s.afterShort rest o next))
  | unknownLong {arg start opt : CStr} {ambiguous : Bool} (here : s.AtLongOption arg start opt)
      (unknown : findLongOption s.groups s.numGroups opt = .ok (.inr ambiguous))
  | unexpectedLong {arg start opt : CStr} {g : ℕ} {o : ArgpOption} (here : s.AtLongOption arg start opt)
      (found : findLongOption s.groups s.numGroups opt = .ok (.inl (g, o)))
      (req : o.requirement = .none) (attached : (valueOf opt).isSome)
  | missingLong {arg start opt : CStr} {g : ℕ} {o : ArgpOption} (here : s.AtLongOption arg start opt)
      (found : findLongOption s.groups s.numGroups opt = .ok (.inl (g, o)))
      (req : o.requirement = .mandatory) (bare : valueOf opt = none) (last : s.next + 1 = s.argc)
  | refusedLong {arg start opt : CStr} {g : ℕ} {o : ArgpOption} {value : Option CStr} {next : ℤ}
      (here : s.AtLongOption arg start opt)
      (found : findLongOption s.groups s.numGroups opt = .ok (.inl (g, o)))
      (allowed : o.requirement = .none → valueOf opt = none)
      (takes : Takes { s with next := s.next + 1 } o (valueOf opt) value next)
      (refused : Refuses E g o.key value { s with next := next, argEbadkey := false })

/-- The round is at a short option that is handed to its parser, while `*arg_ebadkey` still says that
the last one was an argument. -/
def Parser.Stale (s : Parser π σ) : Prop := s.argEbadkey = true ∧ ∃ c rest g o,
  s.nextchar = some (c, rest) ∧
  findShortOption s.groups s.numGroups (charToInt c) = .ok (some (g, o)) ∧
  ¬(o.requirement = .mandatory ∧ rest = [] ∧ s.next = s.argc)

/-! ### The round -/

theorem reject_run (m : Message) (s : Parser π σ) :
    ∃ acts, reject m s = (.ok EBADKEY, { s with argEbadkey := false }, acts) := by
  obtain ⟨acts, hrun⟩ := print_run m s
  unfold reject
  rw [Faulting.bind_ok hrun]
  exact ⟨_, rfl⟩

theorem groupParse_argEbadkey (g : ℕ) (key : Key) (arg : Option CStr) (s : Parser π σ) :
    (groupParse E g key arg s).2.1.argEbadkey = s.argEbadkey := by
  cases hparser : (s.groups g).parser with
  | none => rw [groupParse_none hparser]
  | some parser =>
    rw [groupParse_some hparser]
    rfl

theorem requirement_some {o : ArgpOption} : o.requirement ≠ .none ↔ o.arg.isSome := by
  rw [ne_eq, requirement_none]
  exact Option.isSome_iff_ne_none.symm

theorem requirement_optional {o : ArgpOption} :
    o.requirement = .optional ↔ o.arg.isSome ∧ Has o.flags OPTION_ARG_OPTIONAL := by
  unfold ArgpOption.requirement
  cases o.arg with
  | none => simp
  | some arg =>
    by_cases h : Has o.flags OPTION_ARG_OPTIONAL
    · simp [h]
    · simp [h]

/-- A short option with its argument is handed to its parser. -/
theorem takeShort_takes {rest : CStr} {o : ArgpOption} {value : Option CStr} {next : ℤ}
    (h : Takes s o (attachedTo rest) value next) (c : CChar) (g : ℕ) :
    takeShort E c rest g o { s with nextchar := bundle rest } =
      groupParse E g (.option o.key) value (s.afterShort rest o next) := by
  have hstart : takeShort E c rest g o { s with nextchar := bundle rest } =
      (if o.arg.isSome then do
        modify fun s => { s with nextchar := none }
        if rest = [] ∧ ¬Has o.flags OPTION_ARG_OPTIONAL then do
          if s.next = s.argc then reject (.shortRequiresArgument c)
          else do
            let value ← argvAt s.next
            setNext (s.next + 1)
            groupParse E g (.option o.key) (some value)
        else
          groupParse E g (.option o.key) (attachedTo rest)
      else
        groupParse E g (.option o.key) none : ParserM π σ ℤ) { s with nextchar := bundle rest } := rfl
  have hafter : o.requirement ≠ .none →
      s.afterShort rest o next = { s with nextchar := none, next := next } := by
    intro hne
    unfold Parser.afterShort
    rw [if_neg hne]
  rw [hstart]
  cases hreq : o.requirement with
  | none =>
    have harg : ¬o.arg.isSome = true := by
      rw [← requirement_some, hreq]
      simp
    have hplain : s.afterShort rest o next = { s with nextchar := bundle rest, next := next } := by
      unfold Parser.afterShort
      rw [if_pos hreq]
    rw [if_neg harg, hplain]
    generalize attachedTo rest = attached at h
    cases h with
    | flag attached req => rfl
    | attached value req => exact (req hreq).elim
    | omitted req => cases hreq.symm.trans req
    | separate req more low elem => cases hreq.symm.trans req
  | optional =>
    obtain ⟨harg, hoptional⟩ := requirement_optional.mp hreq
    rw [if_pos harg, hafter (by simp [hreq])]
    unfold modify
    rw [Faulting.modify_bind_run, if_neg (fun hboth => hboth.2 hoptional)]
    generalize attachedTo rest = attached at h ⊢
    cases h with
    | flag attached req => cases hreq.symm.trans req
    | attached value req => rfl
    | omitted req => rfl
    | separate req more low elem => cases hreq.symm.trans req
  | mandatory =>
    obtain ⟨harg, hoptional⟩ := requirement_mandatory.mp hreq
    rw [if_pos harg, hafter (by simp [hreq])]
    unfold modify
    rw [Faulting.modify_bind_run]
    by_cases hrest : rest = []
    · rw [if_pos ⟨hrest, hoptional⟩]
      have hnone : attachedTo rest = none := if_pos hrest
      rw [hnone] at h
      cases h with
      | flag attached req => cases hreq.symm.trans req
      | omitted req => cases hreq.symm.trans req
      | separate req more low elem =>
        have hread := argvAt_some (s := { s with nextchar := none }) low elem
        rw [if_neg more, Faulting.bind_ok hread]
        rfl
    · rw [if_neg (fun hboth => hrest hboth.1)]
      have hsome : attachedTo rest = some rest := if_neg hrest
      rw [hsome] at h ⊢
      cases h with
      | flag attached req => cases hreq.symm.trans req
      | attached value req => rfl

theorem takeLong_takes {opt : CStr} {o : ArgpOption} {value : Option CStr} {next : ℤ}
    (h : Takes s o (valueOf opt) value next) (allowed : o.requirement = .none → valueOf opt = none)
    (start : CStr) (g : ℕ) : takeLong E start opt g o s =
      groupParse E g (.option o.key) value { s with next := next, argEbadkey := false } := by
  have hallowed : ¬((valueOf opt).isSome ∧ o.arg = none) := by
    intro hboth
    rw [allowed (requirement_none.mpr hboth.2)] at hboth
    cases hboth.1
  unfold takeLong
  rw [if_neg hallowed]
  by_cases hseparate : o.arg.isSome ∧ valueOf opt = none ∧ ¬Has o.flags OPTION_ARG_OPTIONAL
  · have hreq := requirement_mandatory.mpr ⟨hseparate.1, hseparate.2.2⟩
    rw [if_pos hseparate]
    rw [hseparate.2.1] at h
    cases h with
    | flag attached req => cases hreq.symm.trans req
    | omitted req => cases hreq.symm.trans req
    | separate req more low elem =>
      have hread := argvAt_some low elem
      unfold get
      rw [Faulting.gets_bind_run]
      simp only [id_eq]
      rw [if_neg more, Faulting.bind_ok hread]
      rfl
  · rw [if_neg hseparate]
    generalize hopt : valueOf opt = attached at h
    rw [hopt] at allowed hseparate
    cases h with
    | flag attached req =>
      rw [allowed req]
      rfl
    | attached value req => rfl
    | omitted req => rfl
    | separate req more low elem =>
      obtain ⟨harg, hoptional⟩ := requirement_mandatory.mp req
      exact (hseparate ⟨harg, rfl, hoptional⟩).elim

/-- Nothing is left of `argv` for the argument. -/
theorem takeShort_missing {o : ArgpOption} (req : o.requirement = .mandatory) (last : s.next = s.argc)
    (c : CChar) (g : ℕ) : takeShort E c [] g o s =
      reject (.shortRequiresArgument c) { s with nextchar := none } := by
  obtain ⟨harg, hoptional⟩ := requirement_mandatory.mp req
  have hwants : ([] : CStr) = [] ∧ ¬Has o.flags OPTION_ARG_OPTIONAL := ⟨rfl, hoptional⟩
  unfold takeShort get modify
  rw [Faulting.gets_bind_run, if_pos harg, Faulting.modify_bind_run, if_pos hwants]
  exact congrFun (if_pos last) _

theorem takeLong_unexpected {o : ArgpOption} (req : o.requirement = .none) {opt : CStr}
    (attached : (valueOf opt).isSome) (start : CStr) (g : ℕ) :
    takeLong E start opt g o s = reject (.argumentNotAllowed start o.name) s := by
  unfold takeLong
  rw [if_pos ⟨attached, requirement_none.mp req⟩]

theorem takeLong_missing {o : ArgpOption} (req : o.requirement = .mandatory) {opt : CStr}
    (bare : valueOf opt = none) (last : s.next = s.argc) (start : CStr) (g : ℕ) :
    takeLong E start opt g o s = reject (.requiresArgument start o.name) s := by
  obtain ⟨harg, hoptional⟩ := requirement_mandatory.mp req
  unfold takeLong get
  rw [bare, if_neg (fun h => Bool.false_ne_true h.1), if_pos ⟨harg, rfl, hoptional⟩,
    Faulting.gets_bind_run]
  exact congrFun (if_pos last) _

/-- How a round ends that rejects an option. -/
def Parser.Rejects (s : Parser π σ) (run : Except Fault ℤ × Parser π σ × List Act) : Prop :=
  ∃ s₁ acts, run = (.ok EBADKEY, s₁, acts) ∧ (s₁.argEbadkey = true ↔ s.Stale)

theorem rejects_reject (hstale : ¬s.Stale) (m : Message) (s' : Parser π σ) :
    s.Rejects (reject m s') := by
  obtain ⟨acts, hrun⟩ := reject_run m s'
  exact ⟨_, acts, hrun, fun h => (Bool.false_ne_true h).elim, fun h => (hstale h).elim⟩

theorem rejects_groupParse {g : ℕ} {key : ℤ} {value : Option CStr} {s' : Parser π σ}
    (refused : Refuses E g key value s') (hflag : s'.argEbadkey = true ↔ s.Stale) :
    s.Rejects (groupParse E g (.option key) value s') := by
  have hkept := groupParse_argEbadkey (E := E) g (.option key) value s'
  rw [← hkept] at hflag
  exact ⟨_, _, Prod.ext refused rfl, hflag⟩

/-- A long option is none of a bundle. -/
theorem Parser.AtLongOption.not_stale {arg start opt : CStr} (h : s.AtLongOption arg start opt) :
    ¬s.Stale := by
  intro hstale
  obtain ⟨-, c, rest, g, o, hchar, -⟩ := hstale
  rw [h.1.1] at hchar
  cases hchar

/-- The flag that comes out of the round is off, but for a stale one. -/
theorem Rejected.round (hb : s.Bundled) (h : Rejected E (settle s)) :
    (settle s).Rejects (parserParseNext E s) := by
  have hargs : ∀ {c : CChar} {rest : CStr}, (settle s).nextchar = some (c, rest) →
      (settle s).argsOnly = false := by
    intro c rest hchar
    apply hb.settle
    rw [hchar]
    rfl
  cases h with
  | unknownShort here unknown =>
    rw [round_short here, parseShort_eq (hargs here), unknown]
    apply rejects_reject
    intro hstale
    obtain ⟨-, c, rest, g, o, hchar, hfound, -⟩ := hstale
    cases here.symm.trans hchar
    cases unknown.symm.trans hfound
  | missingShort here found req last =>
    rw [round_short here, parseShort_eq (hargs here), found]
    dsimp only
    rw [takeShort_missing (s := { settle s with nextchar := bundle [] }) req last]
    apply rejects_reject
    intro hstale
    obtain ⟨-, c, rest, g, o, hchar, hfound, hhanded⟩ := hstale
    cases here.symm.trans hchar
    cases found.symm.trans hfound
    exact hhanded ⟨req, rfl, last⟩
  | refusedShort here found takes refused =>
    rw [round_short here, parseShort_eq (hargs here), found]
    dsimp only
    rw [takeShort_takes takes]
    apply rejects_groupParse refused
    constructor
    · intro hflag
      refine ⟨hflag, _, _, _, _, here, found, ?_⟩
      intro hmissing
      obtain ⟨req, hrest, last⟩ := hmissing
      rw [hrest] at takes
      cases takes with
      | flag attached req' => cases req.symm.trans req'
      | omitted req' => cases req.symm.trans req'
      | separate req' more low elem => exact more last
    · intro hstale
      exact hstale.1
  | unknownLong here unknown =>
    rw [round_long here, parseLong_eq, unknown]
    exact rejects_reject here.not_stale _ _
  | unexpectedLong here found req attached =>
    rw [round_long here, parseLong_eq, found]
    dsimp only
    rw [takeLong_unexpected req attached]
    exact rejects_reject here.not_stale _ _
  | missingLong here found req bare last =>
    rw [round_long here, parseLong_eq, found]
    dsimp only
    rw [takeLong_missing (s := { settle s with next := (settle s).next + 1 }) req bare last]
    exact rejects_reject here.not_stale _ _
  | refusedLong here found allowed takes refused =>
    rw [round_long here, parseLong_eq, found]
    dsimp only
    rw [takeLong_takes takes allowed]
    exact rejects_groupParse refused
      ⟨fun h => (Bool.false_ne_true h).elim, fun h => (here.not_stale h).elim⟩

/-! ### The rest of the parse -/

/-- The loop ends with the first round that returns an error; by induction on the rounds before. -/
theorem parserLoop_visits {s₀ s₁ : Parser π σ} {err : ℤ} {acts : List Act} (h : Visits E s₀ s)
    (hround : parserParseNext E s = (.ok err, s₁, acts)) (herr : err ≠ 0) :
    ∃ k, ∀ fuel, k ≤ fuel → ∃ acts', parserLoop E fuel s₀ = (.ok err, s₁, acts') := by
  induction h with
  | here s =>
    refine ⟨1, fun fuel hfuel => ?_⟩
    obtain ⟨fuel, rfl⟩ : ∃ fuel', fuel = fuel' + 1 := ⟨fuel - 1, by omega⟩
    unfold parserLoop
    rw [Faulting.bind_ok hround, if_neg herr]
    exact ⟨_, rfl⟩
  | next run rest ih =>
    obtain ⟨k, hk⟩ := ih hround
    refine ⟨k + 1, fun fuel hfuel => ?_⟩
    obtain ⟨fuel, rfl⟩ : ∃ fuel', fuel = fuel' + 1 := ⟨fuel - 1, by omega⟩
    obtain ⟨acts', hloop⟩ := hk fuel (by omega)
    unfold parserLoop
    rw [Faulting.bind_ok run, if_pos rfl, hloop]
    exact ⟨_, rfl⟩

variable {defaults : Defaults π} {argp : Option (Argp π)} {start : Start σ} {endIndex : Bool}

theorem InLoop.result {s₁ : Parser π σ} {err : ℤ} {acts : List Act}
    (h : InLoop E defaults argp start s) (hround : parserParseNext E s = (.ok err, s₁, acts))
    (herr : err ≠ 0) (endIndex : Bool) : ∃ k, ∀ fuel, k ≤ fuel →
      (argpParse E defaults fuel argp start endIndex).result =
        (parserFinalize E err endIndex s₁).1 := by
  obtain ⟨hmalloc, cvt, s₀, acts₀, hconvert, hinit, hvisits⟩ := h
  obtain ⟨k, hk⟩ := parserLoop_visits hvisits hround herr
  refine ⟨k, fun fuel hfuel => ?_⟩
  obtain ⟨acts', hloop⟩ := hk fuel hfuel
  unfold argpParse
  rw [if_pos hmalloc, hconvert]
  dsimp only
  unfold parse
  rw [Faulting.bind_ok hinit, if_pos rfl, Faulting.bind_ok hloop]

/-- The parse ends with an error, or it exits. -/
def Errs (r : Except Fault (ℤ × Option ℤ)) : Prop := r = .error .exit ∨ r = .ok (EINVAL, none)

/-- Once the arguments are found wanting, `EINVAL` is returned. -/
theorem errs_of_finishArgs {err : ℤ} {s s' : Parser π σ} {acts : List Act}
    (h : finishArgs E err endIndex s = (.ok (EBADKEY, none), s', acts)) :
    Errs (parserFinalize E err endIndex s).1 := by
  unfold parserFinalize
  rw [Faulting.bind_ok h]
  dsimp only
  have hfinish : ∃ s₁ acts₁, finishParsers E EBADKEY s' = (.error .exit, s₁, acts₁) ∨
      finishParsers E EBADKEY s' = (.ok EBADKEY, s₁, acts₁) := by
    obtain ⟨s₁, acts₁, hrun₁, -⟩ := callErrors_run E s'
    obtain ⟨r, acts₂, hhelp, hr, -⟩ := stateHelp_run s'
    unfold finishParsers get
    rw [Faulting.gets_bind_run, if_neg (by decide), if_pos rfl]
    rcases hr with rfl | rfl
    · rw [Faulting.bind_ok hhelp]
      simp only [id_eq]
      rw [Faulting.bind_ok hrun₁]
      exact ⟨_, _, .inr rfl⟩
    · rw [Faulting.bind_error hhelp]
      exact ⟨_, _, .inl rfl⟩
  obtain ⟨s₁, acts₁, hfinish | hfinish⟩ := hfinish
  · rw [Faulting.bind_error hfinish]
    exact .inl rfl
  · obtain ⟨s₂, acts₂, hrun₂, -⟩ := callAll_run E .fini (List.range s₁.numGroups).reverse s₁
    rw [Faulting.bind_ok hfinish]
    unfold get
    rw [Faulting.gets_bind_run]
    simp only [id_eq]
    rw [Faulting.bind_ok hrun₂]
    exact .inr rfl

theorem parserFinalize_rejected (h : s.argEbadkey = false) :
    Errs (parserFinalize E EBADKEY endIndex s).1 := by
  have hargs : finishArgs E EBADKEY endIndex s =
      (.ok (EBADKEY, none), s, [.finalizes s.next s.argv]) := by
    unfold finishArgs get emit
    rw [Faulting.gets_bind_run, Faulting.emit_bind_run]
    simp only [id_eq, h]
    rw [if_neg (by decide)]
    rfl
  exact errs_of_finishArgs hargs

theorem parserFinalize_tooMany (h : s.argEbadkey = true) (hleft : s.next ≠ s.argc) :
    Errs (parserFinalize E EBADKEY false s).1 := by
  obtain ⟨acts, hrun, -⟩ := printTooMany_run s
  have hargs : finishArgs E EBADKEY false s =
      (.ok (EBADKEY, none), s, .finalizes s.next s.argv :: (acts ++ [])) := by
    unfold finishArgs get emit
    rw [Faulting.gets_bind_run, Faulting.emit_bind_run]
    simp only [id_eq, h]
    rw [if_pos (by decide), if_neg hleft, if_neg Bool.false_ne_true, Faulting.bind_ok hrun]
    rfl
  exact errs_of_finishArgs hargs

/-- A flag that is on makes no error of it. -/
theorem parserFinalize_stale (h : s.argEbadkey = true) :
    parserFinalize E EBADKEY endIndex s = parserFinalize E 0 endIndex s := by
  have hargs : finishArgs E EBADKEY endIndex s = finishArgs E 0 endIndex s := by
    unfold finishArgs get emit
    rw [Faulting.gets_bind_run, Faulting.gets_bind_run]
    simp only [id_eq, h]
    rfl
  unfold parserFinalize
  rw [Faulting.bind_run, Faulting.bind_run, hargs]

/-- An option that is rejected makes the parse end with an error, unless the flag is stale, and then
there is room for what is left in `*end_index`, or nothing left: from there on the parse is the same
as without an error. -/
theorem rejected_errs (h : InLoop E defaults argp start s) (hrejected : Rejected E (settle s))
    (endIndex : Bool) :
    ∃ s₁ acts, parserParseNext E s = (.ok EBADKEY, s₁, acts) ∧
      (¬(settle s).Stale ∨ endIndex = false ∧ s₁.next ≠ s₁.argc → ∃ k, ∀ fuel, k ≤ fuel →
        Errs (argpParse E defaults fuel argp start endIndex).result) ∧
      ((settle s).Stale → ∃ k, ∀ fuel, k ≤ fuel →
        (argpParse E defaults fuel argp start endIndex).result =
          (parserFinalize E 0 endIndex s₁).1) := by
  obtain ⟨s₁, acts, hround, hflag⟩ := hrejected.round h.bundled
  obtain ⟨k, hresult⟩ := h.result hround (by decide) endIndex
  refine ⟨s₁, acts, hround, ?_, ?_⟩
  · intro hcond
    refine ⟨k, fun fuel hfuel => ?_⟩
    rw [hresult fuel hfuel]
    by_cases hstale : (settle s).Stale
    · rcases hcond with hfresh | ⟨rfl, hleft⟩
      · exact (hfresh hstale).elim
      · exact parserFinalize_tooMany (hflag.mpr hstale) hleft
    · exact parserFinalize_rejected (eq_false_of_ne_true fun hon => hstale (hflag.mp hon))
  · intro hstale
    refine ⟨k, fun fuel hfuel => ?_⟩
    rw [hresult fuel hfuel, parserFinalize_stale (hflag.mpr hstale)]

/-! ### Two parses -/

/-- `prog -z`. -/
def startZ : Start Unit where
  argv := [[letterP], [dash, letterZ]]
  flags := ARGP_NO_HELP ||| ARGP_NO_EXIT
  input := 0
  world := ()

set_option maxRecDepth 4000 in
theorem startZ_errs : ∃ k, ∀ fuel, k ≤ fuel →
    Errs (argpParse acceptAll noDefaults fuel (some argpA) startZ false).result := by
  have hloop : ∃ s, InLoop acceptAll noDefaults (some argpA) startZ s ∧
      (settle s).nextchar = some (⟨122, by decide⟩, []) ∧ (settle s).argEbadkey = false ∧
      findShortOption (settle s).groups (settle s).numGroups (charToInt ⟨122, by decide⟩) = .ok none :=
    ⟨_, ⟨rfl, _, _, _, rfl, rfl, .next rfl (.here _)⟩, rfl, rfl, rfl⟩
  obtain ⟨s, hin, hchar, hflag, hunknown⟩ := hloop
  obtain ⟨s₁, acts, -, herrs, -⟩ := rejected_errs hin (.unknownShort hchar hunknown) false
  apply herrs
  left
  intro hstale
  rw [hstale.1] at hflag
  cases hflag

/-- A parser that does not know the key of `-a`. -/
def unknownA : Env Unit Unit :=
  { acceptAll with respond := fun parser key arg shown world =>
      { acceptAll.respond parser key arg shown world with err := if key = 97 then EBADKEY else 0 } }

/-- `prog x -a`, with the arguments in order. -/
def startXA : Start Unit where
  argv := [[letterP], [letterX], [dash, letterA]]
  flags := ARGP_NO_HELP ||| ARGP_NO_EXIT ||| ARGP_IN_ORDER
  input := 0
  world := ()

set_option maxRecDepth 4000 in
/-- The `-a` is rejected, and the parse succeeds. -/
theorem startXA_succeeds :
    (∃ s, InLoop unknownA noDefaults (some argpA) startXA s ∧ Rejected unknownA (settle s)) ∧
    (argpParse unknownA noDefaults 10 (some argpA) startXA false).result = .ok (0, none) := by
  refine ⟨⟨_, ⟨rfl, _, _, _, rfl, rfl, .next rfl (.next rfl (.here _))⟩,
    .refusedShort rfl rfl (.flag none rfl) rfl⟩, rfl⟩

end MuslBsd.Argp
