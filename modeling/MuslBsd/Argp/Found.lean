import MuslBsd.Argp.Faults

/-! What a round does once its lookup is done, with the option that it has found or with none. -/
namespace MuslBsd.Argp
open MuslBsd.Support

variable {π σ : Type} {E : Env π σ} {s : Parser π σ}

/-! ### After the lookup -/

section

variable (E : Env π σ)

/-- Print, if that is wanted, and give up. -/
def reject (m : Message) : ParserM π σ ℤ := do
  print m
  setEbadkey false
  pure EBADKEY

/-- What `parser_parse_next` does with a short option that it has found. -/
def takeShort (c : CChar) (rest : CStr) (g : ℕ) (option : ArgpOption) : ParserM π σ ℤ := do
  let s ← get
  if option.arg.isSome then do
    modify fun s => { s with nextchar := none }
    if rest = [] ∧ ¬Has option.flags OPTION_ARG_OPTIONAL then do
      if s.next = s.argc then reject (.shortRequiresArgument c)
      else do
        let value ← argvAt s.next
        setNext (s.next + 1)
        groupParse E g (.option option.key) (some value)
    else
      groupParse E g (.option option.key) (if rest = [] then none else some rest)
  else
    groupParse E g (.option option.key) none

/-- What `parser_parse_next` does with a long option that it has found. -/
def takeLong (start opt : CStr) (g : ℕ) (option : ArgpOption) : ParserM π σ ℤ := do
  let value := valueOf opt
  if value.isSome ∧ option.arg = none then reject (.argumentNotAllowed start option.name)
  else if option.arg.isSome ∧ value = none ∧ ¬Has option.flags OPTION_ARG_OPTIONAL then do
    let s ← get
    if s.next = s.argc then reject (.requiresArgument start option.name)
    else do
      let value ← argvAt s.next
      setNext (s.next + 1)
      setEbadkey false
      groupParse E g (.option option.key) (some value)
  else do
    setEbadkey false
    groupParse E g (.option option.key) value

end

theorem parseShort_eq (hargs : s.argsOnly = false) (c : CChar) (rest : CStr) :
    parseShort E c rest s =
      match findShortOption s.groups s.numGroups (charToInt c) with
      | .error x => (.error x, { s with nextchar := bundle rest }, [])
      | .ok none => reject (if s.posixlyCorrect then .illegalOption c else .invalidOption c)
          { s with nextchar := bundle rest }
      | .ok (some (g, option)) => takeShort E c rest g option { s with nextchar := bundle rest } := by
  have hlook := look_eq (fun s : Parser π σ => findShortOption s.groups s.numGroups (charToInt c))
    { s with nextchar := bundle rest }
  unfold parseShort get modify
  rw [Faulting.gets_bind_run]
  simp only [id_eq]
  rw [if_neg (by simp [hargs]), Faulting.modify_bind_run]
  dsimp only at hlook
  cases hfind : findShortOption s.groups s.numGroups (charToInt c) with
  | error x =>
    rw [hfind] at hlook
    rw [Faulting.bind_error hlook]
  | ok found =>
    rw [hfind] at hlook
    rw [Faulting.bind_ok hlook]
    cases found with
    | none => rfl
    | some found => rfl

theorem parseLong_eq (arg start opt : CStr) : parseLong E arg start opt s =
    match findLongOption s.groups s.numGroups opt with
    | .error x => (.error x, { s with next := s.next + 1 }, [])
    | .ok (.inr ambiguous) => reject (if ambiguous then .ambiguous arg else .unrecognized arg)
        { s with next := s.next + 1 }
    | .ok (.inl (g, option)) => takeLong E start opt g option { s with next := s.next + 1 } := by
  have hlook := look_eq (fun s : Parser π σ => findLongOption s.groups s.numGroups opt)
    { s with next := s.next + 1 }
  unfold parseLong modify
  rw [Faulting.modify_bind_run]
  dsimp only at hlook
  cases hfind : findLongOption s.groups s.numGroups opt with
  | error x =>
    rw [hfind] at hlook
    rw [Faulting.bind_error hlook]
  | ok found =>
    rw [hfind] at hlook
    rw [Faulting.bind_ok hlook]
    cases found with
    | inr ambiguous => rfl
    | inl found => rfl

/-! ### Rounds at options -/

/-- The element at `next` is a long option with this text; messages put `start` in front of it. -/
def Parser.AtLongOption (s : Parser π σ) (arg start opt : CStr) : Prop :=
  s.AtElement arg ∧
    ((classifyArg (Has s.flags ARGP_LONG_ONLY) s.shortOpts arg = .ok (.longOption opt) ∧
        start = [dash, dash]) ∨
      (classifyArg (Has s.flags ARGP_LONG_ONLY) s.shortOpts arg = .ok (.longOnlyOption opt) ∧
        start = arg.take 1))

theorem round_short {c : CChar} {rest : CStr} (h : (settle s).nextchar = some (c, rest)) :
    parserParseNext E s = parseShort E c rest (settle s) := by
  unfold parserParseNext modify get
  rw [Faulting.modify_bind_run, Faulting.gets_bind_run]
  simp only [id_eq]
  rw [h]

theorem round_long {arg start opt : CStr} (h : (settle s).AtLongOption arg start opt) :
    parserParseNext E s = parseLong E arg start opt (settle s) := by
  obtain ⟨⟨hchar, hargs, hlt, hnext, harg⟩, hclass⟩ := h
  have hlook := look_eq (fun s : Parser π σ =>
    classifyArg (Has s.flags ARGP_LONG_ONLY) s.shortOpts arg) (settle s)
  unfold parserParseNext modify get
  rw [Faulting.modify_bind_run, Faulting.gets_bind_run]
  simp only [id_eq]
  rw [hchar]
  dsimp only
  rw [if_neg (by simp [hargs]), if_neg (by omega), Faulting.bind_ok (argvAt_some hnext harg)]
  rcases hclass with ⟨hc, rfl⟩ | ⟨hc, rfl⟩
  · rw [hc] at hlook
    rw [Faulting.bind_ok hlook]
    rfl
  · rw [hc] at hlook
    rw [Faulting.bind_ok hlook]
    rfl

/-! ### The entry that is found -/

/-- The entry behind `longOption`. -/
def longEntry (entries : List Entry) (arg : CStr) : Option Entry :=
  match entries.find? fun e => e.Exact arg with
  | some e => some e
  | none =>
    match entries.filter fun e => e.Abbreviated arg with
    | [] => none
    | e :: es => if ∀ e' ∈ es, e'.base = e.base then some e else none

theorem longEntry_some {entries : List Entry} {arg : CStr} {e : Entry}
    (h : longEntry entries arg = some e) : longOption entries arg = .inl (e.group, e.option) := by
  unfold longEntry at h
  unfold longOption
  cases hexact : entries.find? fun e => e.Exact arg with
  | some e' =>
    rw [hexact] at h
    cases h
    rfl
  | none =>
    rw [hexact] at h
    cases habbr : entries.filter fun e => e.Abbreviated arg with
    | nil =>
      rw [habbr] at h
      cases h
    | cons e' es =>
      rw [habbr] at h
      dsimp only at h ⊢
      split at h
      · rename_i hsame
        cases h
        rw [if_pos hsame]
      · cases h

/-- The lookup of a short option ends at this entry. -/
def Parser.FindsShort (s : Parser π σ) (c : CChar) (e : Entry) : Prop :=
  c.val.toNat < 128 ∧ ¬ComesToNull s.groups s.numGroups (Entry.HasKey (charToInt c)) ∧
    ((entriesIn s.groups (List.range s.numGroups)).find? fun e => e.HasKey (charToInt c)) = some e

/-- The lookup of a long option finds this entry. -/
def Parser.FindsLong (s : Parser π σ) (opt : CStr) (e : Entry) : Prop :=
  ¬ComesToNull s.groups s.numGroups (Entry.Exact · opt) ∧
    longEntry (entriesIn s.groups (List.range s.numGroups)) opt = some e

theorem Parser.FindsShort.found {c : CChar} {e : Entry} (h : s.FindsShort c e) :
    findShortOption s.groups s.numGroups (charToInt c) = .ok (some (e.group, e.option)) := by
  obtain ⟨hascii, hnull, hfind⟩ := h
  have hlookup := (findShortOption_eq s.groups s.numGroups ((charToInt_range c).mpr hascii)).2 hnull
  rw [hlookup, hfind]
  rfl

theorem Parser.FindsLong.found {opt : CStr} {e : Entry} (h : s.FindsLong opt e) :
    findLongOption s.groups s.numGroups opt = .ok (.inl (e.group, e.option)) := by
  rw [(findLongOption_eq s.groups s.numGroups opt).2 h.1, longEntry_some h.2]

end MuslBsd.Argp
