import MuslBsd.Argp.Docs

/-! Runs of the parser on a tree, and on the tree without documentation. -/
namespace MuslBsd.Argp
open MuslBsd.Support
open Faulting (Along)

variable {π σ : Type} {E : Env π σ} {s : Parser π σ}

/-! ### Steps that see nothing of the options -/

theorem withoutDocs_update (groups : ℕ → Group π) (g : ℕ) (group : Group π) :
    Function.update (fun g => (groups g).withoutDocs) g group.withoutDocs =
      fun g' => (Function.update groups g group g').withoutDocs :=
  (Function.comp_update Group.withoutDocs groups g group).symm

theorem answered_withoutDocs (s : Parser π σ) (g : ℕ) (a : Answer σ) :
    s.withoutDocs.answered g a = (s.answered g a).withoutDocs := by
  have hgroups := withoutDocs_update s.groups g
    { s.groups g with childInputs := a.childInputs, hook := a.hook }
  unfold Parser.answered Parser.withoutDocs
  rw [← hgroups]
  rfl

theorem along_get_bind {α : Type} {k : Parser π σ → ParserM π σ α} (hk : k s.withoutDocs = k s)
    (h : Along Parser.withoutDocs (k s) s) : Along Parser.withoutDocs (get >>= k) s :=
  .gets_bind hk h

theorem along_modify_bind {α : Type} {g : Parser π σ → Parser π σ} {k : Unit → ParserM π σ α}
    (hg : g s.withoutDocs = (g s).withoutDocs) (h : Along Parser.withoutDocs (k ()) (g s)) :
    Along Parser.withoutDocs (modify g >>= k) s :=
  .modify_bind hg h

theorem along_print (m : Message) (s : Parser π σ) : Along Parser.withoutDocs (print m) s := by
  unfold print
  apply along_get_bind rfl
  apply Along.ite
  · intro _
    exact .emit _
  · intro _
    exact .pure _

theorem along_setEbadkey (b : Bool) (s : Parser π σ) : Along Parser.withoutDocs (setEbadkey b) s :=
  .modify rfl

theorem along_setNext (next : ℤ) (s : Parser π σ) : Along Parser.withoutDocs (setNext next) s :=
  .modify rfl

theorem along_argvAt (i : ℤ) (s : Parser π σ) : Along Parser.withoutDocs (argvAt i) s := by
  unfold argvAt
  apply along_get_bind rfl
  apply Along.ite
  · intro _
    cases s.argv[i.toNat]? with
    | none => exact .stop _
    | some arg => exact .pure _
  · intro _
    exact .stop _

theorem along_groupParse (g : ℕ) (key : Key) (arg : Option CStr) (s : Parser π σ) :
    Along Parser.withoutDocs (groupParse E g key arg) s := by
  unfold groupParse
  apply along_get_bind rfl
  cases (s.groups g).parser with
  | none => exact .pure _
  | some parser =>
    apply along_modify_bind (answered_withoutDocs s g _)
    refine .bind (.emit _) ?_
    intro _ _ _ _
    exact .pure _

/-! ### Arguments -/

theorem along_tryParsers (val : CStr) (gs : List ℕ) (s : Parser π σ) :
    Along Parser.withoutDocs (tryParsers E val gs) s := by
  induction gs generalizing s with
  | nil => exact .pure _
  | cons g gs ih =>
    unfold tryParsers
    apply along_modify_bind
    · rfl
    refine .bind (along_groupParse _ _ _ _) ?_
    intro err s₁ _ _
    apply Along.ite
    · intro _
      apply along_modify_bind
      · rfl
      refine .bind (along_groupParse _ _ _ _) ?_
      intro err s₂ _ _
      apply Along.ite
      · intro _
        exact ih _
      · intro _
        exact .pure _
    · intro _
      exact .pure _

theorem along_addProcessed (g : ℕ) (n : ℤ) (s : Parser π σ) :
    Along Parser.withoutDocs (addProcessed g n) s := by
  have hgroups := withoutDocs_update s.groups g
    { s.groups g with argsProcessed := ((s.groups g).argsProcessed + n.toNat) % 2 ^ 32 }
  apply Along.modify
  unfold Parser.withoutDocs
  rw [← hgroups]
  rfl

theorem along_countArg (tried : Tried) (index : ℤ) (s : Parser π σ) :
    Along Parser.withoutDocs (countArg tried index) s := by
  unfold countArg
  apply along_modify_bind
  · split
    · rfl
    · rfl
  apply along_get_bind rfl
  refine .bind (.emit _) ?_
  intro _ s₁ _ _
  apply Along.ite
  · intro _
    exact along_addProcessed _ _ _
  · intro _
    exact .modify rfl

theorem along_parserParseArg (val : CStr) (s : Parser π σ) :
    Along Parser.withoutDocs (parserParseArg E val) s := by
  unfold parserParseArg
  apply along_get_bind rfl
  refine .bind (along_tryParsers _ _ _) ?_
  intro tried s₁ _ _
  apply Along.ite
  · intro _
    refine .bind (along_countArg _ _ _) ?_
    intro _ _ _ _
    exact .pure _
  · intro _
    exact .pure _

theorem along_exchange (s : Parser π σ) : Along Parser.withoutDocs exchange s := by
  unfold exchange
  apply along_get_bind rfl
  apply Along.ite
  · intro _
    exact .stop _
  · intro _
    exact .modify rfl

theorem along_extendNonopts (s : Parser π σ) : Along Parser.withoutDocs extendNonopts s := by
  unfold extendNonopts
  apply along_get_bind rfl
  apply Along.ite
  · intro _
    exact .modify rfl
  · intro _
    apply Along.ite
    · intro _
      exact along_exchange s
    · intro _
      exact .pure _

theorem along_parseNonOption (arg : CStr) (s : Parser π σ) :
    Along Parser.withoutDocs (parseNonOption E arg) s := by
  unfold parseNonOption
  apply along_get_bind rfl
  cases s.ordering with
  | permute =>
    refine .bind (along_extendNonopts s) ?_
    intro _ s₁ _ _
    apply along_get_bind rfl
    apply Along.ite
    · intro _
      exact .stop _
    · intro _
      apply along_modify_bind
      · rfl
      exact .pure _
  | requireOrder =>
    apply along_modify_bind
    · rfl
    exact .pure _
  | returnInOrder =>
    refine .bind (along_setEbadkey _ _) ?_
    intro _ s₁ _ _
    exact along_parserParseArg arg s₁

theorem along_rewindNonopts (s : Parser π σ) : Along Parser.withoutDocs rewindNonopts s := by
  unfold rewindNonopts
  refine .bind (along_exchange s) ?_
  intro _ s₁ _ _
  exact .modify rfl

theorem along_parseQuote (s : Parser π σ) : Along Parser.withoutDocs parseQuote s := by
  unfold parseQuote
  apply along_modify_bind
  · rfl
  apply along_get_bind rfl
  apply Along.ite
  · intro _
    exact .stop _
  · intro _
    apply Along.ite
    · intro _
      refine .bind (along_rewindNonopts _) ?_
      intro _ s₁ _ _
      apply along_modify_bind
      · rfl
      exact .pure _
    · intro _
      apply along_modify_bind
      · rfl
      exact .pure _

/-! ### Lookups -/

theorem along_look {α : Type} {g : Parser π σ → Except Fault α} (h : g s.withoutDocs = g s) :
    Along Parser.withoutDocs (look g) s := by
  unfold look
  apply along_get_bind
  · rw [h]
  cases g s with
  | ok a => exact .pure a
  | error x => exact .stop x

/-- The lookups of the next round do not match documentation. -/
structure Parser.DocsIgnored (s : Parser π σ) : Prop where
  short : ∀ c rest, s.nextchar = some (c, rest) →
    ¬ComesToNull s.groups s.numGroups (Entry.HasKey (charToInt c)) → ∀ e,
      ((entriesIn s.groups (List.range s.numGroups)).find? fun e => e.HasKey (charToInt c)) = some e →
        ¬e.option.IsDoc
  long : ∀ opt, s.AtLong opt → ¬ComesToNull s.groups s.numGroups (Entry.Exact · opt) →
    DocsUnmatched (entriesIn s.groups (List.range s.numGroups)) opt

theorem along_reject (m : Message) (s : Parser π σ) : Along Parser.withoutDocs (reject m) s := by
  unfold reject
  refine .bind (along_print _ _) ?_
  intro _ _ _ _
  refine .bind (along_setEbadkey _ _) ?_
  intro _ _ _ _
  exact .pure _

theorem along_takeShort (c : CChar) (rest : CStr) (g : ℕ) (option : ArgpOption) (s : Parser π σ) :
    Along Parser.withoutDocs (takeShort E c rest g option) s := by
  unfold takeShort
  apply along_get_bind rfl
  apply Along.ite
  · intro _
    apply along_modify_bind
    · rfl
    apply Along.ite
    · intro _
      apply Along.ite
      · intro _
        exact along_reject _ _
      · intro _
        refine .bind (along_argvAt _ _) ?_
        intro value _ _ _
        refine .bind (along_setNext _ _) ?_
        intro _ _ _ _
        exact along_groupParse _ _ _ _
    · intro _
      exact along_groupParse _ _ _ _
  · intro _
    exact along_groupParse _ _ _ _

theorem along_takeLong (start opt : CStr) (g : ℕ) (option : ArgpOption) (s : Parser π σ) :
    Along Parser.withoutDocs (takeLong E start opt g option) s := by
  unfold takeLong
  apply Along.ite
  · intro _
    exact along_reject _ _
  · intro _
    apply Along.ite
    · intro _
      apply along_get_bind rfl
      apply Along.ite
      · intro _
        exact along_reject _ _
      · intro _
        refine .bind (along_argvAt _ _) ?_
        intro value _ _ _
        refine .bind (along_setNext _ _) ?_
        intro _ _ _ _
        refine .bind (along_setEbadkey _ _) ?_
        intro _ _ _ _
        exact along_groupParse _ _ _ _
    · intro _
      refine .bind (along_setEbadkey _ _) ?_
      intro _ _ _ _
      exact along_groupParse _ _ _ _

theorem along_parseShort {c : CChar} {rest : CStr}
    (h : findShortOption s.withoutDocs.groups s.numGroups (charToInt c) =
      findShortOption s.groups s.numGroups (charToInt c)) :
    Along Parser.withoutDocs (parseShort E c rest) s := by
  by_cases hargs : s.argsOnly = false
  · have hargs' : s.withoutDocs.argsOnly = false := hargs
    unfold Along
    rw [parseShort_eq hargs, parseShort_eq hargs']
    cases hfind : findShortOption s.groups s.numGroups (charToInt c) with
    | error x =>
      have hfind' : findShortOption s.withoutDocs.groups s.withoutDocs.numGroups (charToInt c) =
          .error x := h.trans hfind
      rw [hfind']
      rfl
    | ok found =>
      have hfind' : findShortOption s.withoutDocs.groups s.withoutDocs.numGroups (charToInt c) =
          .ok found := h.trans hfind
      rw [hfind']
      cases found with
      | none => exact along_reject _ { s with nextchar := bundle rest }
      | some found => exact along_takeShort c rest _ _ { s with nextchar := bundle rest }
  · have hon : s.argsOnly = true := by simpa using hargs
    have hfails : ∀ s : Parser π σ, s.argsOnly = true →
        parseShort E c rest s = (.error .assertion, s, []) := by
      intro s hon
      unfold parseShort get
      rw [Faulting.gets_bind_run]
      exact congrFun (if_pos hon) s
    unfold Along
    rw [hfails s hon, hfails s.withoutDocs hon]

theorem along_parseLong {arg start opt : CStr}
    (h : findLongOption s.withoutDocs.groups s.numGroups opt =
      findLongOption s.groups s.numGroups opt) :
    Along Parser.withoutDocs (parseLong E arg start opt) s := by
  unfold Along
  rw [parseLong_eq, parseLong_eq]
  cases hfind : findLongOption s.groups s.numGroups opt with
  | error x =>
    have hfind' : findLongOption s.withoutDocs.groups s.withoutDocs.numGroups opt = .error x :=
      h.trans hfind
    rw [hfind']
    rfl
  | ok found =>
    have hfind' : findLongOption s.withoutDocs.groups s.withoutDocs.numGroups opt = .ok found :=
      h.trans hfind
    rw [hfind']
    cases found with
    | inr ambiguous => exact along_reject _ { s with next := s.next + 1 }
    | inl found => exact along_takeLong start opt _ _ { s with next := s.next + 1 }

/-! ### Rounds -/

theorem argvAt_ok {i : ℤ} {arg : CStr} {s' : Parser π σ} {acts : List Act}
    (h : argvAt i s = (.ok arg, s', acts)) : s' = s ∧ 0 ≤ i ∧ s.argv[i.toNat]? = some arg := by
  by_cases hin : 0 ≤ i → s.argv[i.toNat]? = none
  · rw [argvAt_bounds hin] at h
    cases h
  · push Not at hin
    obtain ⟨hi, hsome⟩ := hin
    obtain ⟨arg', harg⟩ := Option.ne_none_iff_exists'.mp hsome
    rw [argvAt_some hi harg] at h
    cases h
    exact ⟨rfl, hi, harg⟩

theorem settle_withoutDocs (s : Parser π σ) : settle s.withoutDocs = (settle s).withoutDocs := by
  unfold settle
  by_cases hquoted : s.quoted ≠ 0 ∧ s.next < s.quoted <;> by_cases hlast : s.next < s.lastNonopt <;>
    by_cases hfirst : s.next < s.firstNonopt <;>
    simp [Parser.withoutDocs, hquoted, hlast, hfirst]

/-- A round that ignores documentation. -/
theorem along_parserParseNext (h : (settle s).DocsIgnored)
    (hone : OneArrayEach (entriesIn s.groups (List.range s.numGroups))) :
    Along Parser.withoutDocs (parserParseNext E) s := by
  rw [← settle_groups s, ← settle_numGroups s] at hone
  unfold parserParseNext
  apply along_modify_bind
  · exact settle_withoutDocs s
  generalize settle s = s at h hone
  apply along_get_bind rfl
  cases hchar : s.nextchar with
  | some bundle => exact along_parseShort (findShortOption_withoutDocs _ (h.short _ _ hchar))
  | none =>
    apply Along.ite
    · intro _
      refine .bind (along_setEbadkey _ _) ?_
      intro _ _ _ _
      apply Along.ite
      · intro _
        exact .pure _
      · intro _
        refine .bind (along_argvAt _ _) ?_
        intro arg _ _ _
        exact along_parserParseArg _ _
    · intro hargs
      apply Along.ite
      · intro _
        refine .bind (along_setEbadkey _ _) ?_
        intro _ _ _ _
        apply Along.ite
        · intro _
          refine .bind (along_rewindNonopts _) ?_
          intro _ _ _ _
          apply along_modify_bind
          · rfl
          exact .pure _
        · intro _
          exact .pure _
      · intro hleft
        refine .bind (along_argvAt _ _) ?_
        intro arg s₁ acts₁ hread
        obtain ⟨rfl, hlow, helem⟩ := argvAt_ok hread
        have hat : s₁.AtElement arg :=
          ⟨hchar, eq_false_of_ne_true hargs, not_le.mp hleft, hlow, helem⟩
        refine .bind (along_look rfl) ?_
        intro type s₂ acts₂ hclass
        rw [look_eq] at hclass
        have hlong : ∀ {opt : CStr}, s₁.AtLong opt → findLongOption s₁.withoutDocs.groups s₁.numGroups opt =
            findLongOption s₁.groups s₁.numGroups opt := by
          intro opt hopt
          exact findLongOption_withoutDocs hone (h.long opt hopt)
        obtain ⟨hc, hsame⟩ := Prod.mk.inj hclass
        obtain ⟨rfl, -⟩ := Prod.mk.inj hsame
        cases type with
        | arg => exact along_parseNonOption _ _
        | quote => exact along_parseQuote _
        | longOption opt => exact along_parseLong (hlong ⟨arg, hat, .inl hc⟩)
        | longOnlyOption opt => exact along_parseLong (hlong ⟨arg, hat, .inr hc⟩)
        | shortOption first rest =>
          apply along_modify_bind
          · rfl
          exact .pure _

/-- By induction on the rounds. -/
theorem along_parserLoop (fuel : ℕ) (h : ∀ s', Visits E s s' →
    (settle s').DocsIgnored ∧ OneArrayEach (entriesIn s'.groups (List.range s'.numGroups))) :
    Along Parser.withoutDocs (parserLoop E fuel) s := by
  induction fuel generalizing s with
  | zero => exact .stop _
  | succ fuel ih =>
    obtain ⟨hignored, hone⟩ := h s (.here s)
    unfold parserLoop
    refine .bind (along_parserParseNext hignored hone) ?_
    intro err s₁ acts₁ hround
    apply Along.ite
    · intro hzero
      rw [hzero] at hround
      exact ih fun s' hvisits => h s' (.next hround hvisits)
    · intro _
      exact .pure _

/-! ### Before and after -/

theorem along_sweep (key : Key) (wanted : Group π → Prop) [DecidablePred wanted]
    (hwanted : ∀ group, wanted group.withoutDocs ↔ wanted group) (gs : List ℕ) (err : ℤ)
    (s : Parser π σ) : Along Parser.withoutDocs (sweep E key wanted gs err) s := by
  induction gs generalizing err s with
  | nil => exact .pure _
  | cons g gs ih =>
    unfold sweep
    apply Along.ite
    · intro _
      apply along_get_bind
      · exact if_congr (hwanted _) rfl rfl
      apply Along.ite
      · intro _
        refine .bind (along_groupParse _ _ _ _) ?_
        intro err _ _ _
        exact ih _ _
      · intro _
        exact ih _ _
    · intro _
      exact .pure _

theorem along_callAll (key : Key) (gs : List ℕ) (s : Parser π σ) :
    Along Parser.withoutDocs (callAll E key gs) s := by
  induction gs generalizing s with
  | nil => exact .pure _
  | cons g gs ih =>
    unfold callAll
    refine .bind (along_groupParse _ _ _ _) ?_
    intro _ _ _ _
    exact ih _

theorem along_initInput (g : ℕ) (s : Parser π σ) : Along Parser.withoutDocs (initInput g) s := by
  have hgroups := withoutDocs_update s.groups g
    { s.groups g with input := s.inputOf g, childInputs := s.slotsOf g }
  unfold initInput
  apply along_get_bind rfl
  apply along_modify_bind
  · unfold Parser.withoutDocs
    rw [← hgroups]
    rfl
  exact .emit _

theorem along_initGroups (gs : List ℕ) (err : ℤ) (s : Parser π σ) :
    Along Parser.withoutDocs (initGroups E gs err) s := by
  induction gs generalizing err s with
  | nil => exact .pure _
  | cons g gs ih =>
    unfold initGroups initGroup
    apply Along.ite
    · intro _
      refine .bind (.bind (along_initInput _ _) ?_) ?_
      · intro _ _ _ _
        exact along_groupParse _ _ _ _
      · intro _ _ _ _
        exact ih _ _
    · intro _
      exact .pure _

theorem along_initParsers (argv : List CStr) (s : Parser π σ) :
    Along Parser.withoutDocs (initParsers E argv) s := by
  unfold initParsers skipName
  apply along_get_bind rfl
  refine .bind (along_initGroups _ _ _) ?_
  intro err s₁ _ _
  apply Along.ite
  · intro _
    apply along_modify_bind
    · by_cases hskip : argv ≠ [] ∧ ¬Has s₁.flags ARGP_PARSE_ARGV0
      · rw [if_pos hskip]
        exact if_pos hskip
      · rw [if_neg hskip]
        exact if_neg hskip
    exact .pure _
  · intro _
    exact .pure _

theorem along_finishAll (s : Parser π σ) : Along Parser.withoutDocs (finishAll E) s := by
  unfold finishAll
  apply along_get_bind rfl
  refine .bind (along_sweep _ _ (fun _ => Iff.rfl) _ _ _) ?_
  intro _ _ _ _
  refine .bind (along_sweep _ _ (fun _ => Iff.rfl) _ _ _) ?_
  intro _ _ _ _
  exact .pure _

theorem along_finishArgs (err : ℤ) (endIndex : Bool) (s : Parser π σ) :
    Along Parser.withoutDocs (finishArgs E err endIndex) s := by
  unfold finishArgs printTooMany
  apply along_get_bind rfl
  refine .bind (.emit _) ?_
  intro _ s₁ _ _
  apply Along.ite
  · intro _
    apply Along.ite
    · intro _
      refine .bind (along_finishAll _) ?_
      intro _ _ _ _
      apply along_get_bind rfl
      exact .pure _
    · intro _
      apply Along.ite
      · intro _
        exact .pure _
      · intro _
        refine .bind ?_ ?_
        · apply along_get_bind rfl
          apply Along.ite
          · intro _
            exact .emit _
          · intro _
            exact .pure _
        · intro _ _ _ _
          exact .pure _
  · intro _
    exact .pure _

theorem along_stateHelp (s : Parser π σ) : Along Parser.withoutDocs stateHelp s := by
  unfold stateHelp
  apply along_get_bind rfl
  apply Along.ite
  · intro _
    refine .bind (.emit _) ?_
    intro _ _ _ _
    apply Along.ite
    · intro _
      exact .pure _
    · intro _
      exact .stop _
  · intro _
    exact .pure _

theorem along_finishParsers (err : ℤ) (s : Parser π σ) :
    Along Parser.withoutDocs (finishParsers E err) s := by
  unfold finishParsers
  apply along_get_bind rfl
  apply Along.ite
  · intro _
    refine .bind (along_sweep _ _ (fun _ => Iff.rfl) _ _ _) ?_
    intro _ _ _ _
    exact .pure _
  · intro _
    apply Along.ite
    · intro _
      refine .bind (along_stateHelp _) ?_
      intro _ _ _ _
      refine .bind (along_callAll _ _ _) ?_
      intro _ _ _ _
      exact .pure _
    · intro _
      refine .bind (along_callAll _ _ _) ?_
      intro _ _ _ _
      exact .pure _

theorem along_parserFinalize (err : ℤ) (endIndex : Bool) (s : Parser π σ) :
    Along Parser.withoutDocs (parserFinalize E err endIndex) s := by
  unfold parserFinalize
  refine .bind (along_finishArgs _ _ _) ?_
  intro r _ _ _
  refine .bind (along_finishParsers _ _) ?_
  intro _ _ _ _
  apply along_get_bind rfl
  refine .bind (along_callAll _ _ _) ?_
  intro _ _ _ _
  exact .pure _

theorem along_parse {fuel : ℕ} {argv : List CStr} {endIndex : Bool}
    (h : ∀ s₀ acts₀ s', initParsers E argv s = (.ok 0, s₀, acts₀) → Visits E s₀ s' →
      (settle s').DocsIgnored ∧ OneArrayEach (entriesIn s'.groups (List.range s'.numGroups))) :
    Along Parser.withoutDocs (parse E fuel argv endIndex) s := by
  unfold parse
  refine .bind (along_initParsers _ _) ?_
  intro err s₀ acts₀ hinit
  apply Along.ite
  · intro hzero
    rw [hzero] at hinit
    refine .bind (along_parserLoop fuel fun s' hvisits => h s₀ acts₀ s' hinit hvisits) ?_
    intro _ _ _ _
    exact along_parserFinalize _ _ _
  · intro _
    exact .pure _

/-! ### The groups of the tree -/

def Converted.withoutDocs (cvt : Converted π) : Converted π :=
  { cvt with groups := cvt.groups.map Group.withoutDocs }

theorem removeDocsAll_eq (children : List (Argp π)) : removeDocsAll children = children.map removeDocs := by
  induction children with
  | nil => rfl
  | cons child children ih =>
    unfold removeDocsAll
    rw [ih]
    rfl

mutual

theorem convertOptions_removeDocs : ∀ (argp : Argp π) (parent : Option ℕ) (parentIndex : ℕ)
    (cvt : Converted π), convertOptions false (removeDocs argp) parent parentIndex cvt.withoutDocs =
      (convertOptions false argp parent parentIndex cvt).map Converted.withoutDocs
  | .node options parser children, parent, parentIndex, cvt => by
    have hsome : (options.map OptionArray.withoutDocs).isSome = options.isSome := Option.isSome_map
    have hlength : (removeDocsAll children).length = children.length := by
      rw [removeDocsAll_eq, List.length_map]
    unfold removeDocs convertOptions
    rw [hsome, hlength]
    by_cases hgroup : options.isSome ∨ parser.isSome
    · rw [if_pos hgroup, if_pos hgroup]
      have hrest := convertChildren_removeDocs children (some cvt.groups.length) 0
        ⟨cvt.groups ++ [newGroup options parser children.length parent parentIndex],
          cvt.shortOpts ++ [], cvt.childInputs + children.length⟩
      unfold Converted.withoutDocs at hrest ⊢
      rw [List.map_append] at hrest
      rw [List.length_map]
      exact hrest
    · rw [if_neg hgroup, if_neg hgroup]
      exact convertChildren_removeDocs children none 0 cvt

theorem convertChildren_removeDocs : ∀ (children : List (Argp π)) (parent : Option ℕ) (index : ℕ)
    (cvt : Converted π),
    convertChildren false (removeDocsAll children) parent index cvt.withoutDocs =
      (convertChildren false children parent index cvt).map Converted.withoutDocs
  | [], parent, index, cvt => by
    unfold removeDocsAll convertChildren
    rfl
  | child :: children, parent, index, cvt => by
    unfold removeDocsAll convertChildren
    rw [convertOptions_removeDocs child parent index cvt]
    cases convertOptions false child parent index cvt with
    | error x => rfl
    | ok cvt₁ => exact convertChildren_removeDocs children parent (index + 1) cvt₁

end

theorem treeGroups_removeDocs (argp : Option (Argp π)) :
    treeGroups (argp.map removeDocs) = (treeGroups argp).map Group.withoutDocs := by
  cases argp with
  | none => rfl
  | some argp =>
    have hconvert : convertOptions false (removeDocs argp) none 0 ⟨[], [], 0⟩ =
        (convertOptions false argp none 0 ⟨[], [], 0⟩).map Converted.withoutDocs :=
      convertOptions_removeDocs argp none 0 ⟨[], [], 0⟩
    unfold treeGroups
    dsimp only [Option.map_some]
    rw [hconvert]
    cases convertOptions false argp none 0 ⟨[], [], 0⟩ with
    | error x => rfl
    | ok cvt => rfl

theorem entries_withoutDocs (group : Group π) :
    group.withoutDocs.entries = group.entries.filter fun o => ¬o.IsDoc := by
  unfold Group.entries Group.withoutDocs
  cases group.options with
  | none => rfl
  | some os => rfl

/-- Documentation is no short option. -/
theorem shortKeys_withoutDocs (groups : List (Group π)) :
    shortKeys (groups.map Group.withoutDocs) = shortKeys groups := by
  unfold shortKeys
  rw [List.flatMap_map]
  apply List.flatMap_congr
  intro group _
  rw [entries_withoutDocs, List.filter_filter]
  congr 1
  apply List.filter_congr
  intro o _
  have hplain : o.IsShort → ¬o.IsDoc := fun h => h.1
  by_cases hshort : o.IsShort
  · simp [hshort, hplain hshort]
  · simp [hshort]

/-- Without documentation there is no less counted. -/
theorem countShort_withoutDocs (options : Option OptionArray) :
    countShort options ≤ countShort (options.map OptionArray.withoutDocs) := by
  cases options with
  | none => exact le_refl _
  | some os =>
    have hle : ∀ entries : List ArgpOption, (entries.takeWhile fun o => o.IsShort).length ≤
        ((entries.filter fun o => ¬o.IsDoc).takeWhile fun o => o.IsShort).length := by
      intro entries
      induction entries with
      | nil => exact le_refl _
      | cons o entries ih =>
        by_cases hshort : o.IsShort
        · have hplain : ¬o.IsDoc := hshort.1
          simp only [List.takeWhile_cons, hshort, decide_true, if_true, List.filter_cons, hplain,
            not_false_eq_true, List.length_cons]
          omega
        · simp [hshort]
    exact hle os.entries

theorem counted_withoutDocs (groups : List (Group π)) :
    counted groups ≤ counted (groups.map Group.withoutDocs) := by
  unfold counted
  induction groups with
  | nil => exact le_refl _
  | cons group groups ih =>
    have hgroup : countShort group.options ≤ countShort group.withoutDocs.options :=
      countShort_withoutDocs group.options
    simp only [List.map_cons, List.sum_cons]
    omega

theorem convertible_withoutDocs {longOnly : Bool} {groups : List (Group π)}
    (h : Convertible longOnly groups) : Convertible longOnly (groups.map Group.withoutDocs) := by
  intro hlong
  obtain ⟨hall, hle⟩ := h hlong
  constructor
  · rw [List.forall_mem_map]
    intro group hgroup hnone
    exact hall group hgroup (Option.map_eq_none_iff.mp hnone)
  · have hcounted := counted_withoutDocs groups
    rw [shortKeys_withoutDocs]
    omega

/-! ### Whole parses -/

def Defaults.withoutDocs (defaults : Defaults π) : Defaults π :=
  ⟨removeDocs defaults.help, defaults.version.map removeDocs⟩

theorem topArgp_removeDocs (defaults : Defaults π) (argp : Option (Argp π)) (flags : ℕ) :
    topArgp defaults.withoutDocs (argp.map removeDocs) flags =
      (topArgp defaults argp flags).map removeDocs := by
  unfold topArgp
  split
  · rfl
  · have hoption : ∀ argp : Option (Argp π), (argp.map removeDocs).toList =
        argp.toList.map removeDocs := by
      intro argp
      cases argp with
      | none => rfl
      | some argp => rfl
    unfold Defaults.withoutDocs
    rw [Option.map_some, removeDocs, removeDocsAll_eq, List.map_append, List.map_append, hoption,
      hoption]
    rfl

variable {defaults : Defaults π} {argp : Option (Argp π)} {start : Start σ} {endIndex : Bool}

/-- The lookups of a parse go through the entries of the tree. -/
theorem InLoop.entries (h : InLoop E defaults argp start s) :
    entriesIn s.groups (List.range s.numGroups) =
      treeEntries (topArgp defaults argp start.flags) := by
  obtain ⟨-, cvt, s₀, acts₀, hconvert, hinit, hvisits⟩ := h
  have hgroups : cvt.groups = treeGroups (topArgp defaults argp start.flags) := by
    obtain ⟨hok, herror⟩ := parserConvert_eq (Has start.flags ARGP_LONG_ONLY)
      (topArgp defaults argp start.flags)
    by_cases hconv : Convertible (Has start.flags ARGP_LONG_ONLY)
        (treeGroups (topArgp defaults argp start.flags))
    · obtain ⟨n, hn⟩ := hok hconv
      cases hconvert.symm.trans hn
      rfl
    · obtain ⟨x, hx⟩ := herror hconv
      cases hconvert.symm.trans hx
  have hstarted := initParsers_run (parserConvert_made hconvert) hinit
  have hkept : Kept s₀ s := by
    clear hinit hstarted
    induction hvisits with
    | here s => exact .refl s
    | @next s s₁ s' acts run rest ih =>
      have hround := (parses_parserParseNext E s).kept
      rw [run] at hround
      exact hround.trans ih
  have hsame : ∀ g, (s.groups g).options =
      (treeGroup (topArgp defaults argp start.flags) g).options := by
    intro g
    rw [(hkept.groups g).options, (hstarted.alike g).options, hgroups]
    rfl
  rw [hkept.numGroups, hstarted.numGroups, hgroups, entriesIn_congr hsame, entriesIn_tree]

theorem setUp_withoutDocs (cvt : Converted π) (start : Start σ) (n : ℕ) :
    setUp E ⟨cvt.groups.map Group.withoutDocs, cvt.shortOpts, n⟩ start =
      (setUp E cvt start).withoutDocs := by
  have hget : ∀ g, (cvt.groups.map Group.withoutDocs).getD g .nil =
      (cvt.groups.getD g .nil).withoutDocs := by
    intro g
    rw [List.getD_eq_getElem?_getD, List.getD_eq_getElem?_getD, List.getElem?_map]
    cases cvt.groups[g]? with
    | none => rfl
    | some group => rfl
  unfold setUp Parser.withoutDocs
  simp only [hget, List.length_map, ne_eq, List.map_eq_nil_iff]
  congr 1
  funext g
  split
  · rfl
  · rfl

theorem treeArrays_removeDocs (argp : Option (Argp π)) :
    none ∈ treeArrays (argp.map removeDocs) ↔ none ∈ treeArrays argp := by
  rw [← treeGroups_options, ← treeGroups_options, treeGroups_removeDocs, List.map_map, List.mem_map,
    List.mem_map]
  simp [Group.withoutDocs]

/-- Documentation under the name `foo`. -/
def optionDoc : ArgpOption :=
  ⟨some [⟨102, by decide⟩, letterO, letterO], 0, none, OPTION_DOC, none, 0⟩

def arrayDoc : OptionArray := ⟨1, [optionA, optionDoc], by decide⟩

def argpDoc : Argp Unit := .node (some arrayDoc) (some ()) []

/-- `prog`. -/
def startBare : Start Unit where
  argv := [[letterP]]
  flags := ARGP_NO_HELP ||| ARGP_NO_EXIT
  input := 0
  world := ()

/-- The only round comes to the end of `argv`. -/
theorem startBare_ignored (s : Parser Unit Unit)
    (h : InLoop acceptAll noDefaults (some argpDoc) startBare s) : (settle s).DocsIgnored := by
  obtain ⟨-, cvt, s₀, acts₀, hconvert, hinit, hvisits⟩ := h
  have hcvt : cvt = ⟨[newGroup (some arrayDoc) (some ()) 0 none 0], [], 0⟩ :=
    (Except.ok.inj hconvert).symm
  have hs₀ : s₀ = (initParsers acceptAll startBare.argv (setUp acceptAll cvt startBare)).2.1 := by
    rw [hinit]
  have hend : (parserParseNext acceptAll s₀).1 = .ok EBADKEY := by
    rw [hs₀, hcvt]
    rfl
  have hs : s = s₀ := by
    rcases hvisits.first with heq | ⟨hgoes, -⟩
    · exact heq
    · rw [hend] at hgoes
      cases hgoes
  have hchar : (settle s).nextchar = none := by
    rw [hs, hs₀, hcvt]
    rfl
  have hnext : ¬(settle s).next < (settle s).argc := by
    rw [hs, hs₀, hcvt]
    decide
  constructor
  · intro c rest hsome
    rw [hchar] at hsome
    cases hsome
  · intro opt hat
    obtain ⟨arg, ⟨-, -, hlt, -⟩, -⟩ := hat
    exact (hnext hlt).elim

/-- `prog --foo`. -/
def startFoo : Start Unit where
  argv := [[letterP], [dash, dash, ⟨102, by decide⟩, letterO, letterO]]
  flags := ARGP_NO_HELP ||| ARGP_NO_EXIT
  input := 0
  world := ()

end MuslBsd.Argp
