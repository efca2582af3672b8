import MuslBsd.Argp.Found

/-! Aliases: what one that is given is parsed as. -/
namespace MuslBsd.Argp
open MuslBsd.Support

variable {π σ : Type} {E : Env π σ} {s : Parser π σ}

/-! ### What an alias is to be -/

/-- Whether an option has an argument. -/
inductive Requirement
  | none
  | optional
  | mandatory
  deriving DecidableEq

def ArgpOption.requirement (o : ArgpOption) : Requirement :=
  if o.arg = .none then .none
  else if Has o.flags OPTION_ARG_OPTIONAL then .optional
  else .mandatory

/-- The option under the name of the alias, and under its key if it has one. -/
def ArgpOption.inherit (o base : ArgpOption) : ArgpOption :=
  { o with
    key := if o.key = 0 then base.key else o.key
    arg := base.arg
    flags := base.flags }

/-- The entry is an alias, and the closest one before it that is none is `base`. -/
structure AliasOf (e : Entry) (base : ArgpOption) : Prop where
  placed : e.Placed
  isAlias : Has e.option.flags OPTION_ALIAS
  closest : ∃ i < e.index, IsBase e.array.entries e.index i ∧ e.array.entries[i]? = some base

/-- In every round of every parse that comes to this entry it is taken as that option. -/
structure ParsedAs (e : Entry) (option : ArgpOption) : Prop where
  short : ∀ {π σ : Type} (E : Env π σ) (s : Parser π σ) (c : CChar) (rest : CStr),
    (settle s).nextchar = some (c, rest) → (settle s).argsOnly = false → s.FindsShort c e →
      parserParseNext E s = takeShort E c rest e.group option
        { settle s with nextchar := bundle rest }
  long : ∀ {π σ : Type} (E : Env π σ) (s : Parser π σ) (arg start opt : CStr),
    (settle s).AtLongOption arg start opt → s.FindsLong opt e →
      parserParseNext E s = takeLong E start opt e.group option
        { settle s with next := s.next + 1 }

/-- The entry is taken as the option that it stands for. -/
def Inherits (e : Entry) : Prop := ∀ base, AliasOf e base → ParsedAs e (e.option.inherit base)

theorem AliasOf.unique {e : Entry} {base base' : ArgpOption} (h : AliasOf e base)
    (h' : AliasOf e base') : base = base' := by
  obtain ⟨i, -, hi, hbase⟩ := h.closest
  obtain ⟨j, -, hj, hbase'⟩ := h'.closest
  rw [hi.unique hj] at hbase
  exact Option.some.inj (hbase.symm.trans hbase')

theorem AliasOf.inherits_iff {e : Entry} {base : ArgpOption} (h : AliasOf e base) :
    Inherits e ↔ ParsedAs e (e.option.inherit base) := by
  constructor
  · intro hall
    exact hall base h
  · intro hparsed base' h'
    rw [← h.unique h']
    exact hparsed

/-- The entry can be given: by its key, or by its name or the beginning of it. -/
def Entry.Givable (e : Entry) : Prop := ∃ (π σ : Type) (s : Parser π σ),
  (∃ c, s.FindsShort c e) ∨ ∃ opt, optionText opt ≠ [] ∧ s.FindsLong opt e

/-! ### Entries that are taken alike -/

theorem requirement_none {o : ArgpOption} : o.requirement = .none ↔ o.arg = none := by
  unfold ArgpOption.requirement
  split
  · rename_i h
    simp [h]
  · rename_i h
    split
    · simp [h]
    · simp [h]

theorem requirement_mandatory {o : ArgpOption} :
    o.requirement = .mandatory ↔ o.arg.isSome ∧ ¬Has o.flags OPTION_ARG_OPTIONAL := by
  unfold ArgpOption.requirement
  cases o.arg with
  | none => simp
  | some arg =>
    by_cases h : Has o.flags OPTION_ARG_OPTIONAL
    · simp [h]
    · simp [h]

theorem requirement_inherit (o base : ArgpOption) :
    (o.inherit base).requirement = base.requirement := rfl

/-- Two options that the parser cannot tell apart. -/
structure Alike (o o' : ArgpOption) : Prop where
  name : o.name = o'.name
  key : o.key = o'.key
  requirement : o.requirement = o'.requirement

theorem Alike.isSome {o o' : ArgpOption} (h : Alike o o') : o.arg.isSome = o'.arg.isSome := by
  have hnone := requirement_none (o := o)
  rw [h.requirement, requirement_none] at hnone
  cases ho : o.arg with
  | none =>
    rw [hnone.mpr ho]
  | some arg =>
    cases ho' : o'.arg with
    | none =>
      rw [hnone.mp ho'] at ho
      cases ho
    | some arg' => rfl

theorem Alike.optional {o o' : ArgpOption} (h : Alike o o') (harg : o.arg.isSome = true) :
    Has o.flags OPTION_ARG_OPTIONAL ↔ Has o'.flags OPTION_ARG_OPTIONAL := by
  have harg' : o'.arg.isSome = true := h.isSome ▸ harg
  have hreq := requirement_mandatory (o := o)
  rw [h.requirement, requirement_mandatory] at hreq
  simp only [harg, harg', true_and] at hreq
  exact (not_iff_not.mp hreq).symm

theorem takeShort_alike {o o' : ArgpOption} (h : Alike o o') (c : CChar) (rest : CStr) (g : ℕ) :
    takeShort E c rest g o = takeShort E c rest g o' := by
  unfold takeShort
  rw [h.key, h.isSome]
  cases harg : o'.arg.isSome with
  | false => rfl
  | true => simp only [h.optional (h.isSome.trans harg)]

theorem takeLong_alike {o o' : ArgpOption} (h : Alike o o') (start opt : CStr) (g : ℕ) :
    takeLong E start opt g o = takeLong E start opt g o' := by
  have hnone : o.arg = none ↔ o'.arg = none := by
    rw [← requirement_none, h.requirement, requirement_none]
  unfold takeLong
  rw [h.key, h.isSome, h.name]
  simp only [hnone]
  cases harg : o'.arg.isSome with
  | false => simp
  | true => simp only [h.optional (h.isSome.trans harg)]

/-! ### Lookups that come to one entry -/

/-- The lookups see nothing of the groups but their options. -/
structure SameOptions {π' σ' : Type} (s : Parser π σ) (s' : Parser π' σ') : Prop where
  options : ∀ g, (s'.groups g).options = (s.groups g).options
  numGroups : s'.numGroups = s.numGroups

section

variable {π' σ' : Type} {s' : Parser π' σ'} (h : SameOptions s s')

include h

theorem SameOptions.entriesIn (gs : List ℕ) : entriesIn s'.groups gs = entriesIn s.groups gs :=
  entriesIn_congr h.options gs

theorem SameOptions.comesToNull (stops : Entry → Prop) :
    ComesToNull s'.groups s'.numGroups stops ↔ ComesToNull s.groups s.numGroups stops := by
  unfold ComesToNull
  simp only [h.options, h.entriesIn, h.numGroups]

theorem SameOptions.findsShort {c : CChar} {e : Entry} (hfinds : s.FindsShort c e) :
    s'.FindsShort c e := by
  obtain ⟨hascii, hnull, hfind⟩ := hfinds
  refine ⟨hascii, ?_, ?_⟩
  · rw [h.comesToNull]
    exact hnull
  · rw [h.entriesIn, h.numGroups]
    exact hfind

/-- Of the element it is only the text that counts, not what follows the `=`. -/
theorem SameOptions.findsLong {opt opt' : CStr} (htext : optionText opt' = optionText opt) {e : Entry}
    (hfinds : s.FindsLong opt e) : s'.FindsLong opt' e := by
  obtain ⟨hnull, hfind⟩ := hfinds
  have hexact : ∀ e : Entry, e.Exact opt' ↔ e.Exact opt := by
    intro e
    unfold Entry.Exact
    rw [htext]
  have habbr : ∀ e : Entry, e.Abbreviated opt' ↔ e.Abbreviated opt := by
    intro e
    unfold Entry.Abbreviated
    rw [htext]
  have hentry : ∀ entries, longEntry entries opt' = longEntry entries opt := by
    intro entries
    unfold longEntry
    simp only [hexact, habbr]
  refine ⟨?_, ?_⟩
  · change ¬ComesToNull s'.groups s'.numGroups fun e => e.Exact opt'
    simp only [h.comesToNull, hexact]
    exact hnull
  · rw [h.entriesIn, h.numGroups, hentry]
    exact hfind

end

theorem settle_sameOptions (s : Parser π σ) : SameOptions s (settle s) :=
  ⟨fun g => by rw [settle_groups], settle_numGroups s⟩

/-! ### Parses that tell options apart -/

/-- Parsers that keep in mind what they have been called with. -/
def recordLast : Env Unit (Option (ℤ × Option CStr)) where
  respond _ key arg shown _ :=
    { err := 0
      argv := shown.argv
      next := shown.next
      flags := shown.flags
      childInputs := shown.childInputs
      hook := shown.hook
      errStream := shown.errStream
      world := some (key, arg) }
  posixlyCorrect := false
  malloc := true

/-- A parse with these options that comes to the last of these elements, or to this bundle. -/
def probe (groups : ℕ → Group π) (numGroups : ℕ) (argv : List CStr)
    (nextchar : Option (CChar × CStr)) : Parser Unit (Option (ℤ × Option CStr)) where
  groups g := newGroup (groups g).options (some ()) 0 none 0
  numGroups := numGroups
  shortOpts := none
  posixlyCorrect := false
  argsOnly := false
  printErrors := false
  ordering := .permute
  firstNonopt := 0
  lastNonopt := 0
  nextchar := nextchar
  argv := argv
  next := 0
  flags := 0
  quoted := 0
  errStream := false
  argEbadkey := false
  world := none

section

variable (argv : List CStr) (nextchar : Option (CChar × CStr))

theorem probe_sameOptions : SameOptions s (probe s.groups s.numGroups argv nextchar) :=
  ⟨fun _ => rfl, rfl⟩

theorem settle_probe (groups : ℕ → Group π) (n : ℕ) :
    settle (probe groups n argv nextchar) = probe groups n argv nextchar := rfl

end

/-- The result of a round, and the key and the argument that have been handed over. -/
def seen (run : Except Fault ℤ × Parser Unit (Option (ℤ × Option CStr)) × List Act) :
    Except Fault ℤ × Option (ℤ × Option CStr) := (run.1, run.2.1.world)

section

variable {s : Parser Unit (Option (ℤ × Option CStr))} {g : ℕ} {o : ArgpOption}

theorem seen_groupParse (hparser : (s.groups g).parser = some ()) (key : ℤ) (arg : Option CStr) :
    seen (groupParse recordLast g (.option key) arg s) = (.ok 0, some (key, arg)) := by
  rw [groupParse_some hparser]
  rfl

theorem seen_reject (hquiet : s.printErrors = false) (m : Message) :
    seen (reject m s) = (.ok EBADKEY, s.world) := by
  have hprint : print m s = (.ok (), s, []) := by
    unfold print get
    rw [Faulting.gets_bind_run, if_neg (by simp [hquiet])]
    rfl
  unfold reject
  rw [Faulting.bind_ok hprint]
  rfl

/-- A short option with nothing behind it. -/
theorem seen_takeShort_last (hparser : (s.groups g).parser = some ()) (hquiet : s.printErrors = false)
    (hend : s.next = s.argc) (c : CChar) : seen (takeShort recordLast c [] g o s) =
      if o.requirement = .mandatory then (.ok EBADKEY, s.world) else (.ok 0, some (o.key, none)) := by
  unfold takeShort get modify
  rw [Faulting.gets_bind_run]
  simp only [id_eq]
  cases harg : o.arg.isSome with
  | false =>
    rw [if_neg Bool.false_ne_true, if_neg (by simp [requirement_mandatory, harg])]
    exact seen_groupParse hparser _ _
  | true =>
    rw [if_pos rfl, Faulting.modify_bind_run]
    by_cases hoptional : Has o.flags OPTION_ARG_OPTIONAL
    · have hwants : ¬(True ∧ ¬Has o.flags OPTION_ARG_OPTIONAL) := fun h => h.2 hoptional
      have hreq : ¬o.requirement = .mandatory := fun h => (requirement_mandatory.mp h).2 hoptional
      rw [if_neg hwants, if_neg hreq]
      exact seen_groupParse (s := { s with nextchar := none }) hparser _ _
    · have hwants : True ∧ ¬Has o.flags OPTION_ARG_OPTIONAL := ⟨trivial, hoptional⟩
      have hreq : o.requirement = .mandatory := requirement_mandatory.mpr ⟨harg, hoptional⟩
      rw [if_pos hwants, if_pos hreq, if_pos hend]
      exact seen_reject (s := { s with nextchar := none }) hquiet _

/-- A short option with a character behind it. -/
theorem seen_takeShort_joined (hparser : (s.groups g).parser = some ()) (c d : CChar) :
    seen (takeShort recordLast c [d] g o s) =
      (.ok 0, some (o.key, if o.requirement = .none then none else some [d])) := by
  unfold takeShort get modify
  rw [Faulting.gets_bind_run]
  simp only [id_eq]
  cases harg : o.arg.isSome with
  | false =>
    rw [if_neg Bool.false_ne_true, if_pos (by simpa [requirement_none] using harg)]
    exact seen_groupParse hparser _ _
  | true =>
    have hreq : ¬o.requirement = .none := by
      intro hnone
      rw [requirement_none.mp hnone] at harg
      cases harg
    rw [if_pos rfl, Faulting.modify_bind_run, if_neg (fun h => by cases h.1), if_neg hreq]
    exact seen_groupParse (s := { s with nextchar := none }) hparser _ _

/-- A long option with nothing behind it. -/
theorem seen_takeLong_last (hparser : (s.groups g).parser = some ()) (hquiet : s.printErrors = false)
    (hend : s.next = s.argc) (start : CStr) {opt : CStr} (hopt : valueOf opt = none) :
    seen (takeLong recordLast start opt g o s) =
      if o.requirement = .mandatory then (.ok EBADKEY, s.world) else (.ok 0, some (o.key, none)) := by
  unfold takeLong
  rw [hopt, if_neg (fun h => Bool.false_ne_true h.1)]
  by_cases hreq : o.requirement = .mandatory
  · obtain ⟨harg, hoptional⟩ := requirement_mandatory.mp hreq
    rw [if_pos ⟨harg, rfl, hoptional⟩, if_pos hreq]
    unfold get
    rw [Faulting.gets_bind_run]
    simp only [id_eq]
    rw [if_pos hend]
    exact seen_reject hquiet _
  · rw [if_neg (fun h => hreq (requirement_mandatory.mpr ⟨h.1, h.2.2⟩)), if_neg hreq]
    exact seen_groupParse (s := { s with argEbadkey := false }) hparser _ _

/-- A long option with a value behind its `=`. -/
theorem seen_takeLong_joined (hparser : (s.groups g).parser = some ())
    (hquiet : s.printErrors = false) (start : CStr) {opt value : CStr}
    (hopt : valueOf opt = some value) : seen (takeLong recordLast start opt g o s) =
      if o.requirement = .none then (.ok EBADKEY, s.world) else (.ok 0, some (o.key, some value)) := by
  unfold takeLong
  rw [hopt]
  by_cases hnone : o.arg = none
  · rw [if_pos ⟨rfl, hnone⟩, if_pos (requirement_none.mpr hnone)]
    exact seen_reject hquiet _
  · rw [if_neg (fun h => hnone h.2), if_neg (fun h => by cases h.2.1),
      if_neg (fun h => hnone (requirement_none.mp h))]
    exact seen_groupParse (s := { s with argEbadkey := false }) hparser _ _

end

theorem iff_of_ite {α : Type} {p q : Prop} [Decidable p] [Decidable q] {a b a' b' : α}
    (h : (if p then a else b) = if q then a' else b') (hne : a ≠ b') (hne' : b ≠ a') : p ↔ q := by
  by_cases hp : p
  · by_cases hq : q
    · simp [hp, hq]
    · rw [if_pos hp, if_neg hq] at h
      exact (hne h).elim
  · by_cases hq : q
    · rw [if_neg hp, if_pos hq] at h
      exact (hne' h).elim
    · simp [hp, hq]

/-- Two options have the same requirement if it is mandatory for both or for none, and absent for both
or for none. -/
theorem requirement_eq {r r' : Requirement} (hmandatory : r = .mandatory ↔ r' = .mandatory)
    (hnone : r = .none ↔ r' = .none) : r = r' := by
  cases r with
  | none => exact (hnone.mp rfl).symm
  | mandatory => exact (hmandatory.mp rfl).symm
  | optional =>
    cases r' with
    | none => cases hnone.mpr rfl
    | mandatory => cases hmandatory.mpr rfl
    | optional => rfl

/-! ### Aliases that are given -/

theorem charToInt_ne_zero (c : CChar) : charToInt c ≠ 0 := by
  have hlt := c.val.toNat_lt
  have hne : c.val.toNat ≠ 0 := fun h => c.property (UInt8.toNat_inj.mp h)
  unfold charToInt
  rw [Int.bmod_def]
  split
  · omega
  · omega

section

variable {e : Entry} {base : ArgpOption}

/-- The parser takes the entry that it has found. -/
theorem parsedAs_option (e : Entry) : ParsedAs e e.option := by
  constructor
  · intro π σ E s c rest hchar hargs hfinds
    have hfound := ((settle_sameOptions s).findsShort hfinds).found
    rw [round_short hchar, parseShort_eq hargs, hfound]
  · intro π σ E s arg start opt hat hfinds
    have hfound := ((settle_sameOptions s).findsLong rfl hfinds).found
    rw [round_long hat, parseLong_eq, hfound, settle_next]

theorem ParsedAs.alike {o o' : ArgpOption} (h : ParsedAs e o) (halike : Alike o o') :
    ParsedAs e o' := by
  constructor
  · intro π σ E s c rest hchar hargs hfinds
    rw [← takeShort_alike halike]
    exact h.short E s c rest hchar hargs hfinds
  · intro π σ E s arg start opt hat hfinds
    rw [← takeLong_alike halike]
    exact h.long E s arg start opt hat hfinds

/-- Given by its key, the entry shows whether its argument is mandatory, and whether it has one. -/
theorem ParsedAs.short_requirement {o : ArgpOption} (h : ParsedAs e o) {c : CChar}
    (hfinds : s.FindsShort c e) : e.option.requirement = o.requirement := by
  have hplain := parsedAs_option e
  have hseen : ∀ rest : CStr, seen (takeShort recordLast c rest e.group e.option
        (probe s.groups s.numGroups [] (bundle rest))) =
      seen (takeShort recordLast c rest e.group o (probe s.groups s.numGroups [] (bundle rest))) := by
    intro rest
    have hprobe := (probe_sameOptions (s := s) [] (some (c, rest))).findsShort hfinds
    have hrun := hplain.short recordLast _ c rest rfl rfl hprobe
    rw [h.short recordLast _ c rest rfl rfl hprobe] at hrun
    exact congrArg seen hrun.symm
  have hlast := hseen []
  have hjoined := hseen [c]
  rw [seen_takeShort_last rfl rfl rfl, seen_takeShort_last rfl rfl rfl] at hlast
  rw [seen_takeShort_joined rfl, seen_takeShort_joined rfl] at hjoined
  have hargs : (if e.option.requirement = .none then none else some [c]) =
      if o.requirement = .none then none else some [c] :=
    (Prod.mk.inj (Option.some.inj (Prod.mk.inj hjoined).2)).2
  exact requirement_eq (iff_of_ite hlast (by simp [EBADKEY, ARGP_ERR_UNKNOWN])
    (by simp [EBADKEY, ARGP_ERR_UNKNOWN])) (iff_of_ite hargs (by simp) (by simp))

/-- The beginning of a long option, with anything behind its `=`. -/
theorem optionText_append {text : CStr} (h : ∀ c ∈ text, c ≠ equalsSign) (value : CStr) :
    optionText (text ++ equalsSign :: value) = text := by
  unfold optionText
  rw [List.takeWhile_append_of_pos (by simpa using h)]
  simp

theorem optionText_self {text : CStr} (h : ∀ c ∈ text, c ≠ equalsSign) : optionText text = text := by
  unfold optionText
  rw [List.takeWhile_eq_self_iff]
  simpa using h

theorem valueOf_append {text : CStr} (h : ∀ c ∈ text, c ≠ equalsSign) (value : CStr) :
    valueOf (text ++ equalsSign :: value) = some value := by
  unfold valueOf
  rw [List.dropWhile_append_of_pos (by simpa using h)]
  simp

theorem valueOf_self {text : CStr} (h : ∀ c ∈ text, c ≠ equalsSign) : valueOf text = none := by
  have hdrop : (text.dropWhile fun c => c ≠ equalsSign) = [] := by
    rw [List.dropWhile_eq_nil_iff]
    simpa using h
  unfold valueOf
  rw [hdrop]

theorem settle_probe_long (groups : ℕ → Group π) (n : ℕ) (d : CChar) (opt : CStr) :
    (settle (probe groups n [dash :: dash :: d :: opt] none)).AtLongOption
      (dash :: dash :: d :: opt) [dash, dash] (d :: opt) :=
  ⟨⟨rfl, rfl, Int.zero_lt_one, le_refl _, rfl⟩, .inl ⟨rfl, rfl⟩⟩

/-- Given by its name, it also shows its key. -/
theorem ParsedAs.long_requirement {o : ArgpOption} (h : ParsedAs e o) {opt : CStr}
    (htext : optionText opt ≠ []) (hfinds : s.FindsLong opt e) :
    e.option.requirement = o.requirement ∧ e.option.key = o.key := by
  have hplain := parsedAs_option e
  have hno : ∀ c ∈ optionText opt, c ≠ equalsSign := by
    intro c hc
    simpa using List.mem_takeWhile_imp hc
  obtain ⟨d, text, hopt⟩ := List.exists_cons_of_ne_nil htext
  rw [hopt] at hno
  have hseen : ∀ opt' : CStr, optionText (d :: opt') = d :: text →
      seen (takeLong recordLast [dash, dash] (d :: opt') e.group e.option
        { probe s.groups s.numGroups [dash :: dash :: d :: opt'] none with next := 1 }) =
      seen (takeLong recordLast [dash, dash] (d :: opt') e.group o
        { probe s.groups s.numGroups [dash :: dash :: d :: opt'] none with next := 1 }) := by
    intro opt' hsame
    have hprobe := (probe_sameOptions (s := s) [dash :: dash :: d :: opt'] none).findsLong
      (hsame.trans hopt.symm) hfinds
    have hat := settle_probe_long s.groups s.numGroups d opt'
    have hrun := hplain.long recordLast _ _ _ _ hat hprobe
    rw [h.long recordLast _ _ _ _ hat hprobe] at hrun
    exact congrArg seen hrun.symm
  have hlast := hseen text (optionText_self hno)
  have hjoined := hseen (text ++ [equalsSign]) (optionText_append hno [])
  rw [seen_takeLong_last rfl rfl rfl _ (valueOf_self hno),
    seen_takeLong_last rfl rfl rfl _ (valueOf_self hno)] at hlast
  have hvalue : valueOf (d :: (text ++ [equalsSign])) = some [] := valueOf_append hno []
  rw [seen_takeLong_joined rfl rfl _ hvalue, seen_takeLong_joined rfl rfl _ hvalue] at hjoined
  have hreq : e.option.requirement = o.requirement := requirement_eq
    (iff_of_ite hlast (by simp [EBADKEY, ARGP_ERR_UNKNOWN]) (by simp [EBADKEY, ARGP_ERR_UNKNOWN]))
    (iff_of_ite hjoined (by simp [EBADKEY, ARGP_ERR_UNKNOWN]) (by simp [EBADKEY, ARGP_ERR_UNKNOWN]))
  refine ⟨hreq, ?_⟩
  -- one of the two elements is accepted
  rw [hreq] at hlast hjoined
  by_cases hmandatory : o.requirement = .mandatory
  · have hnone : ¬o.requirement = .none := by simp [hmandatory]
    rw [if_neg hnone, if_neg hnone] at hjoined
    exact (Prod.mk.inj (Option.some.inj (Prod.mk.inj hjoined).2)).1
  · rw [if_neg hmandatory, if_neg hmandatory] at hlast
    exact (Prod.mk.inj (Option.some.inj (Prod.mk.inj hlast).2)).1

/-- An alias is parsed as the option that it stands for if its own entry has the same requirement for
an argument, and a key unless the other has none; an alias that can be given, only then. -/
theorem alias_inherits_iff (h : AliasOf e base) :
    (e.option.requirement = base.requirement ∧ (e.option.key ≠ 0 ∨ base.key = 0) → Inherits e) ∧
    (e.Givable → Inherits e →
      e.option.requirement = base.requirement ∧ (e.option.key ≠ 0 ∨ base.key = 0)) := by
  rw [h.inherits_iff]
  constructor
  · intro hcond
    obtain ⟨hreq, hkey⟩ := hcond
    refine (parsedAs_option e).alike ⟨rfl, ?_, hreq.trans (requirement_inherit _ _).symm⟩
    show e.option.key = if e.option.key = 0 then base.key else e.option.key
    split
    · rename_i hzero
      rcases hkey with hkey | hkey
      · exact (hkey hzero).elim
      · rw [hzero, hkey]
    · rfl
  · intro hgivable hparsed
    obtain ⟨π, σ, s, hgivable⟩ := hgivable
    rcases hgivable with ⟨c, hfinds⟩ | ⟨opt, htext, hfinds⟩
    · refine ⟨hparsed.short_requirement hfinds, .inl ?_⟩
      have hkey : e.HasKey (charToInt c) := by simpa using List.find?_some hfinds.2.2
      exact fun hzero => charToInt_ne_zero c (hkey.symm.trans hzero)
    · obtain ⟨hreq, hkey⟩ := hparsed.long_requirement htext hfinds
      refine ⟨hreq, ?_⟩
      by_cases hzero : e.option.key = 0
      · right
        have hbase : (e.option.inherit base).key = base.key := if_pos hzero
        rw [← hbase, ← hkey, hzero]
      · exact .inl hzero

end

/-! ### Two aliases -/

def optionAll : ArgpOption :=
  ⟨some [letterA, letterL, letterL], 97, some [capitalX], 0, none, 0⟩

/-- An alias with neither key nor argument. -/
def optionEv : ArgpOption :=
  ⟨some [⟨101, by decide⟩, ⟨118, by decide⟩], 0, none, OPTION_ALIAS, none, 0⟩

/-- An alias with the argument of `optionAll`, and a key of its own. -/
def optionEvX : ArgpOption := { optionEv with key := 101, arg := some [capitalX] }

/-- The entry of an alias of `--all`. -/
def aliasOfAll (o : ArgpOption) (h : ¬o.IsEnd) : Entry :=
  ⟨0, ⟨1, [optionAll, o], by simpa using ⟨by decide, h⟩⟩, 1, o⟩

theorem aliasOfAll_alias {o : ArgpOption} (h : ¬o.IsEnd) (halias : Has o.flags OPTION_ALIAS) :
    AliasOf (aliasOfAll o h) optionAll := by
  have hbase : IsBase [optionAll, o] 1 0 :=
    .alias_ rfl halias Nat.zero_lt_one rfl (by decide) fun i hi hi' => by omega
  exact ⟨rfl, halias, 0, Nat.zero_lt_one, hbase, rfl⟩

/-- A parse with nothing but this array. -/
theorem probe_findsLong {e : Entry} (opt : CStr)
    (hfind : longEntry (entriesFrom 0 e.array 0 e.array.entries) opt = some e) :
    (probe (fun _ => newGroup (some e.array) (some ()) 0 none 0) 1 [] none).FindsLong opt e := by
  refine ⟨?_, ?_⟩
  · intro hnull
    obtain ⟨g, -, hbad, -⟩ := hnull
    cases hbad
  · have hentries : entriesIn (probe (fun _ => newGroup (some e.array) (some ()) 0 none 0) 1 []
        none).groups [0] = entriesFrom 0 e.array 0 e.array.entries := List.append_nil _
    exact (congrArg (longEntry · opt) hentries).trans hfind

/-- With the same requirement, and a key. -/
theorem aliasOfAll_optionEvX : Inherits (aliasOfAll optionEvX (by decide)) ∧
    optionEvX.requirement = optionAll.requirement := by
  have h := alias_inherits_iff (aliasOfAll_alias (o := optionEvX) (by decide) (by decide))
  have hinherits := h.1 ⟨rfl, .inl (by decide)⟩
  have hgivable : (aliasOfAll optionEvX (by decide)).Givable := ⟨_, _, _, .inr
    ⟨[⟨101, by decide⟩, ⟨118, by decide⟩], by decide, probe_findsLong _ rfl⟩⟩
  exact ⟨hinherits, (h.2 hgivable hinherits).1⟩

/-- `--ev` is not parsed as `--all`. -/
theorem aliasOfAll_optionEv : AliasOf (aliasOfAll optionEv (by decide)) optionAll ∧
    (aliasOfAll optionEv (by decide)).Givable ∧ ¬Inherits (aliasOfAll optionEv (by decide)) := by
  have halias := aliasOfAll_alias (o := optionEv) (by decide) (by decide)
  have hfinds := probe_findsLong (e := aliasOfAll optionEv (by decide))
    [⟨101, by decide⟩, ⟨118, by decide⟩] rfl
  refine ⟨halias, ⟨_, _, _, .inr ⟨_, by decide, hfinds⟩⟩, ?_⟩
  intro h
  cases ((h optionAll halias).long_requirement (by decide) hfinds).1

end MuslBsd.Argp
